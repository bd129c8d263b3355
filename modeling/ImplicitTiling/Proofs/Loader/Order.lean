import ImplicitTiling.Proofs.Loader.History
import ImplicitTiling.Proofs.Loader.Priority

/-!
# The order of starts

The worker starts a waiting request of the highest priority, and among those the one that it received
first (`starts_in_order`). That is said of every single start, of which a move may bring several
(`LoaderHistory.starts`). The queue is sorted by priority as it was at the last start, with the
requests received since at its end, so what is kept is that the requests of one priority stand in the
order in which they were received (`Loader.Fair`).
-/

namespace ImplicitTiling

/-! ## Starts -/

/-- A request that is started and those that go on waiting. -/
structure Start where
  request : LoadRequest
  waiting : List LoadRequest

namespace Loader

variable {l : Loader} {received : List LoadRequest}

/-- The starts of the worker, so many at most. -/
def starts : Nat → Loader → List Start
  | 0, _ => []
  | k + 1, l =>
    match l.queue.mergeSort comesFirst with
    | [] => []
    | r :: rest => ⟨r, rest⟩ :: starts k l.startNext

/-- The starts of the worker when it fills the free places. -/
def fillStarts (l : Loader) : List Start :=
  starts (l.places - l.active.length) l

theorem repeat_startNext_succ (k : Nat) (l : Loader) :
    (k + 1).repeat startNext l = k.repeat startNext l.startNext := by
  induction k with
  | zero => rfl
  | succ k ih => rw [Nat.repeat, ih, Nat.repeat]

theorem startNext_of_mergeSort {r : LoadRequest} {rest : List LoadRequest}
    (h : l.queue.mergeSort comesFirst = r :: rest) : l.startNext = l.startAll [r] rest := by
  simp [startNext, h, startAll]

theorem queue_eq_nil_of_mergeSort (h : l.queue.mergeSort comesFirst = []) : l.queue = [] :=
  (h ▸ List.mergeSort_perm l.queue comesFirst).nil_eq.symm

theorem starts_of_queue_eq_nil (k : Nat) (h : l.queue = []) : starts k l = [] := by
  cases k with
  | zero => rfl
  | succ k => simp [starts, h]

/-- What is started becomes active, in that order. -/
theorem active_repeat_startNext (k : Nat) (l : Loader) :
    (k.repeat startNext l).active = l.active ++ (starts k l).map (·.request) := by
  induction k generalizing l with
  | zero => simp [Nat.repeat, starts]
  | succ k ih =>
    rw [repeat_startNext_succ, ih]
    cases hsort : l.queue.mergeSort comesFirst with
    | nil =>
      have hqueue := queue_eq_nil_of_mergeSort hsort
      rw [startNext_of_queue_eq_nil hqueue, starts_of_queue_eq_nil k hqueue,
        starts_of_queue_eq_nil (k + 1) hqueue]
    | cons r rest =>
      simp only [starts, hsort]
      rw [startNext_of_mergeSort hsort]
      simp [startAll]

/-! ## The queue -/

/-- The priorities are numbers, and the requests of each rank wait in the order in which they were
received. -/
structure Fair (received : List LoadRequest) (l : Loader) : Prop where
  ranked : ∀ r ∈ l.requests ++ l.queue, r.IsRanked
  order : ∀ k, (l.queue.filter (·.rank = k)).Sublist received

end Loader

/-- A request is started when it is its turn: none that goes on waiting has a higher priority, and
those of the same priority were received later. -/
def Start.InOrder (received : List LoadRequest) (s : Start) : Prop :=
  ∀ q ∈ s.waiting, ¬ s.request.priority < q.priority ∧
    ((q.priority == s.request.priority) = true → [s.request, q].Sublist received)

namespace Loader

variable {l : Loader} {received : List LoadRequest} {r : LoadRequest} {rest : List LoadRequest}

theorem Fair.of_mergeSort (h : l.Fair received) (hsort : l.queue.mergeSort comesFirst = r :: rest) :
    Start.InOrder received ⟨r, rest⟩ ∧ (l.startAll [r] rest).Fair received := by
  have hqueue : ∀ q ∈ l.queue, q.IsRanked := fun q hq => h.ranked q (List.mem_append_right _ hq)
  have hmem (q : LoadRequest) : q ∈ r :: rest ↔ q ∈ l.queue := by
    rw [← hsort, List.mem_mergeSort]
  have hranked : ∀ q ∈ r :: rest, q.IsRanked := fun q hq => hqueue q ((hmem q).1 hq)
  have horder (k : ℤ ×ₗ ℤ ×ₗ ℤ) : ((r :: rest).filter (·.rank = k)).Sublist received := by
    rw [filter_mergeSort hqueue hsort]
    exact h.order k
  refine ⟨fun q hq => ⟨?_, fun heq => ?_⟩, fun q hq => ?_, fun k => ?_⟩
  · rw [LoadRequest.lt_iff_rank (hranked r (by simp)) (hranked q (by simp [hq]))]
    exact (rank_le_of_mergeSort hqueue hsort hq).not_gt
  · rw [LoadRequest.beq_iff_rank (hranked q (by simp [hq])) (hranked r (by simp))] at heq
    have hpair : [r, q].Sublist ((r :: rest).filter (·.rank = r.rank)) := by
      rw [List.filter_cons_of_pos (by simp)]
      exact (List.singleton_sublist.2 (List.mem_filter.2 ⟨hq, by simpa using heq⟩)).cons_cons r
    exact hpair.trans (horder r.rank)
  · rcases List.mem_append.1 hq with hq | hq
    · exact h.ranked q (List.mem_append_left _ hq)
    · exact hranked q (List.mem_cons_of_mem r hq)
  · exact ((List.sublist_cons_self r rest).filter _).trans (horder k)

/-- Every start is in order, and so is what goes on waiting in the end. -/
theorem Fair.repeat_startNext (h : l.Fair received) (k : Nat) :
    (∀ s ∈ starts k l, s.InOrder received) ∧ (k.repeat startNext l).Fair received := by
  induction k generalizing l with
  | zero => exact ⟨nofun, h⟩
  | succ k ih =>
    rw [repeat_startNext_succ]
    cases hsort : l.queue.mergeSort comesFirst with
    | nil =>
      have hqueue := queue_eq_nil_of_mergeSort hsort
      rw [startNext_of_queue_eq_nil hqueue, starts_of_queue_eq_nil (k + 1) hqueue]
      exact ⟨nofun, (ih h).2⟩
    | cons r rest =>
      obtain ⟨hstart, hfair⟩ := h.of_mergeSort hsort
      rw [← startNext_of_mergeSort hsort] at hfair
      simp only [starts, hsort, List.forall_mem_cons]
      exact ⟨⟨hstart, (ih hfair).1⟩, (ih hfair).2⟩

theorem Fair.fill (h : l.Fair received) :
    (∀ s ∈ l.fillStarts, s.InOrder received) ∧ l.fill.Fair received :=
  h.repeat_startNext _

end Loader

/-! ## Moves -/

namespace LoaderHistory

variable {config : LoaderConfig} {h h' : LoaderHistory} {m : LoaderMove} {moves : List LoaderMove}
  {received : List LoadRequest}

/-- The loader whose free places the worker fills in a move, if it does so. -/
def filled (h : LoaderHistory) : LoaderMove → Option Loader
  | .receive =>
    match h.loader.requests with
    | [] => none
    | r :: rest => some { h.loader with requests := rest, queue := h.loader.queue ++ [r] }
  | .endTask ticket outcome =>
    (h.loader.active.find? (·.ticket == ticket)).map fun r =>
      { h.loader with
        active := h.loader.active.erase r
        results := h.loader.results ++ [⟨ticket, r.tile, outcome⟩] }
  | .leave => if h.loader.isIdle then none else some h.loader
  | _ => none

/-- The starts of the worker in a move. -/
def starts (h : LoaderHistory) (m : LoaderMove) : List Start :=
  match h.filled m with
  | none => []
  | some l => l.fillStarts

/-- The request that the worker receives in a move. -/
def receipt (h : LoaderHistory) : LoaderMove → List LoadRequest
  | .receive => h.loader.requests.head?.toList
  | _ => []

/-- The requests that the worker receives in some moves, the earliest first. -/
def receipts (h : LoaderHistory) : List LoaderMove → List LoadRequest
  | [] => []
  | m :: moves => h.receipt m ++ (h.after m).receipts moves

/-- What a move does that fills no places: at most, it makes a request. -/
structure Rests (h : LoaderHistory) (m : LoaderMove) : Prop where
  active : (h.after m).loader.active = h.loader.active
  queue : (h.after m).loader.queue = h.loader.queue
  requests : ∀ r ∈ (h.after m).loader.requests,
    r ∈ h.loader.requests ∨ m = .request r.tile r.priority
  receipt : h.receipt m = []

theorem rests_of_filled (hfilled : h.filled m = none) : h.Rests m := by
  have hsame (l : Loader) (hl : (h.after m).loader = l) (hactive : l.active = h.loader.active)
      (hqueue : l.queue = h.loader.queue) (hrequests : l.requests = h.loader.requests)
      (hreceipt : h.receipt m = []) : h.Rests m := by
    subst hl
    exact ⟨hactive, hqueue, fun r hr => .inl (hrequests ▸ hr), hreceipt⟩
  cases m with
  | request t priority =>
    cases hpending : h.loader.isPending t with
    | true => exact hsame h.loader (by simp [after, request, hpending]) rfl rfl rfl rfl
    | false =>
      cases hstopped : h.stopped with
      | true => exact hsame h.loader (by simp [after, request, hpending, hstopped]) rfl rfl rfl rfl
      | false =>
        have hloader : (h.after (.request t priority)).loader =
            (h.loader.request t priority).2 := by
          simp [after, request_of_not_isPending hpending hstopped]
        rw [Loader.request_of_not_isPending hpending] at hloader
        refine ⟨by rw [hloader], by rw [hloader], fun r hr => ?_, rfl⟩
        rw [hloader] at hr
        rcases List.mem_append.1 hr with hr | hr
        · exact .inl hr
        · obtain rfl := List.mem_singleton.1 hr
          exact .inr rfl
  | cancel t => exact hsame _ rfl rfl rfl rfl rfl
  | next =>
    cases hnext : h.loader.nextResult? with
    | none => exact hsame h.loader (by simp [after, next, hnext]) rfl rfl rfl rfl
    | some found =>
      obtain ⟨done, loader⟩ := found
      obtain ⟨rest, -, hl⟩ := Loader.exists_nextResult? hnext
      exact hsame loader (by simp [after, next, hnext]) (by rw [hl]) (by rw [hl]) (by rw [hl]) rfl
  | poll => exact hsame _ rfl rfl rfl rfl rfl
  | close => exact hsame _ rfl rfl rfl rfl rfl
  | receive =>
    cases hrequests : h.loader.requests with
    | nil =>
      exact hsame h.loader (by simp [after, Loader.receive, hrequests]) rfl rfl rfl
        (by simp [receipt, hrequests])
    | cons r rest => simp [filled, hrequests] at hfilled
  | endBuild ticket => exact hsame _ rfl rfl rfl rfl rfl
  | endTask ticket outcome =>
    have hfind := Option.map_eq_none_iff.1 hfilled
    exact hsame h.loader (by simp [after, Loader.endTask, hfind]) rfl rfl rfl rfl
  | leave =>
    cases hidle : h.loader.isIdle with
    | true => exact hsame h.loader (by simp [after, leave, hidle]) rfl rfl rfl rfl
    | false => simp [filled, hidle] at hfilled

/-- What a move does before it fills the places: it takes a request or ends a task. -/
theorem of_filled {l : Loader} (hfilled : h.filled m = some l) :
    (h.after m).loader = l.fill ∧ l.active.Sublist h.loader.active ∧
      h.receipt m ++ l.requests = h.loader.requests ∧
      l.queue = h.loader.queue ++ h.receipt m := by
  cases m with
  | receive =>
    cases hrequests : h.loader.requests with
    | nil => simp [filled, hrequests] at hfilled
    | cons r rest =>
      simp only [filled, hrequests] at hfilled
      cases hfilled
      exact ⟨Loader.receive_of_cons hrequests, .refl _, by simp [receipt, hrequests],
        by simp [receipt, hrequests]⟩
  | endTask ticket outcome =>
    obtain ⟨r, hr, rfl⟩ := Option.map_eq_some_iff.1 hfilled
    exact ⟨by simp [after, Loader.endTask, hr], List.erase_sublist, rfl, by simp [receipt]⟩
  | leave =>
    cases hidle : h.loader.isIdle with
    | true => simp [filled, hidle] at hfilled
    | false =>
      simp only [filled, hidle] at hfilled
      cases hfilled
      exact ⟨by simp [after, leave, hidle], .refl _, rfl, by simp [receipt]⟩
  | _ => cases hfilled

/-- The tasks that are active after a move are some that were active before and those started. -/
theorem exists_active_eq (h : LoaderHistory) (m : LoaderMove) :
    ∃ kept, kept.Sublist h.loader.active ∧
      (h.after m).loader.active = kept ++ (h.starts m).map (·.request) := by
  unfold starts
  cases hfilled : h.filled m with
  | none => exact ⟨h.loader.active, .refl _, by simp [(rests_of_filled hfilled).active]⟩
  | some l =>
    obtain ⟨hafter, hkept, -, -⟩ := of_filled hfilled
    rw [hafter]
    exact ⟨l.active, hkept, Loader.active_repeat_startNext _ l⟩

theorem fair_of_filled {l : Loader} (hfair : h.loader.Fair received)
    (hfilled : h.filled m = some l) : l.Fair (received ++ h.receipt m) := by
  obtain ⟨-, -, hrequests, hqueue⟩ := of_filled hfilled
  refine ⟨fun r hr => hfair.ranked r ?_, fun k => ?_⟩
  · rw [hqueue] at hr
    rw [← hrequests]
    simp only [List.mem_append] at hr ⊢
    tauto
  · rw [hqueue, List.filter_append]
    exact (hfair.order k).append List.filter_sublist

theorem inOrder_of_mem_starts (hfair : h.loader.Fair received) {s : Start} (hs : s ∈ h.starts m) :
    s.InOrder (received ++ h.receipt m) := by
  unfold starts at hs
  split at hs
  · cases hs
  next l hfilled => exact (fair_of_filled hfair hfilled).fill.1 s hs

theorem fair_after (hfair : h.loader.Fair received)
    (hranked : ∀ t priority, m = .request t priority → priority.isNaN = false) :
    (h.after m).loader.Fair (received ++ h.receipt m) := by
  cases hfilled : h.filled m with
  | none =>
    have hrests := rests_of_filled hfilled
    rw [hrests.receipt, List.append_nil]
    refine ⟨fun r hr => ?_, by rw [hrests.queue]; exact hfair.order⟩
    rw [hrests.queue] at hr
    rcases List.mem_append.1 hr with hr | hr
    · rcases hrests.requests r hr with hr | hm
      · exact hfair.ranked r (List.mem_append_left _ hr)
      · exact hranked _ _ hm
    · exact hfair.ranked r (List.mem_append_right _ hr)
  | some l =>
    rw [(of_filled hfilled).1]
    exact (fair_of_filled hfair hfilled).fill.2

theorem fair_start (config : LoaderConfig) : (start config).loader.Fair [] :=
  ⟨nofun, fun _ => .refl _⟩

theorem fair_of_run (run : Run config h moves h') (hfair : h.loader.Fair received)
    (hranked : ∀ t priority, .request t priority ∈ moves → priority.isNaN = false) :
    h'.loader.Fair (received ++ h.receipts moves) := by
  induction run generalizing received with
  | nil => simpa [receipts] using hfair
  | cons _ _ ih =>
    have hnext := fair_after hfair fun t p hm => hranked t p (hm ▸ List.mem_cons_self)
    rw [receipts, ← List.append_assoc]
    exact ih hnext fun t p hm => hranked t p (List.mem_cons_of_mem _ hm)

theorem receipts_concat (run : Run config h moves h') (m : LoaderMove) :
    h.receipts (moves ++ [m]) = h.receipts moves ++ h'.receipt m := by
  induction run with
  | nil => simp [receipts]
  | cons _ _ ih => simp [receipts, ih]

/-- **Waiting requests are started by priority, and in the order in which they were received among
equals.** -/
theorem starts_in_order (run : Run config (start config) moves h)
    (hranked : ∀ t priority, .request t priority ∈ moves → priority.isNaN = false) :
    (h.loader.queue = [] ∨ h.loader.active.length = max 1 config.maxConcurrent) ∧
    ∀ m,
      (∃ kept, kept.Sublist h.loader.active ∧
        (h.after m).loader.active = kept ++ (h.starts m).map (·.request)) ∧
      ∀ s ∈ h.starts m, ∀ q ∈ s.waiting,
        ¬ s.request.priority < q.priority ∧
          ((q.priority == s.request.priority) = true →
            [s.request, q].Sublist ((start config).receipts (moves ++ [m]))) := by
  have hsound := sound_of_run run
  refine ⟨?_, fun m => ⟨h.exists_active_eq m, fun s hs => ?_⟩⟩
  · rw [← hsound.places]
    exact hsound.busy.full
  · rw [receipts_concat run]
    exact inOrder_of_mem_starts (by simpa using fair_of_run run (fair_start config) hranked) hs

/-- One task is active, and three requests wait when it ends: the last two have the same priority. -/
theorem starts_in_order_four_tiles :
    ∃ moves h, Run ⟨1, none⟩ (start ⟨1, none⟩) moves h ∧
      (∀ t priority, .request t priority ∈ moves → priority.isNaN = false) ∧
      h.starts (.endTask 0 (.loaded .empty)) =
        [⟨⟨2, ⟨1, 1, 0⟩, 2⟩, [⟨3, ⟨1, 1, 1⟩, 2⟩, ⟨1, ⟨1, 0, 0⟩, 1⟩]⟩] ∧
      ¬ (2 : Float32) < 1 ∧ ((2 : Float32) == 2) = true ∧
      [⟨2, ⟨1, 1, 0⟩, 2⟩, ⟨3, ⟨1, 1, 1⟩, 2⟩].Sublist
        ((start ⟨1, none⟩).receipts (moves ++ [.endTask 0 (.loaded .empty)])) := by
  have hsorted : [(⟨1, ⟨1, 0, 0⟩, 1⟩ : LoadRequest), ⟨2, ⟨1, 1, 0⟩, 2⟩, ⟨3, ⟨1, 1, 1⟩, 2⟩].mergeSort
      Loader.comesFirst = [⟨2, ⟨1, 1, 0⟩, 2⟩, ⟨3, ⟨1, 1, 1⟩, 2⟩, ⟨1, ⟨1, 0, 0⟩, 1⟩] := by
    have hlt : (1 : Float32) < 2 := by decide
    have hself : ¬ (2 : Float32) < 2 := by decide
    simp [List.mergeSort, Loader.comesFirst, hlt, hself]
  obtain ⟨h, run, hstarts⟩ : ∃ h, Run ⟨1, none⟩ (start ⟨1, none⟩)
      [.request ⟨0, 0, 0⟩ 1, .request ⟨1, 0, 0⟩ 1, .request ⟨1, 1, 0⟩ 2, .request ⟨1, 1, 1⟩ 2,
        .receive, .receive, .receive, .receive, .endBuild 0] h ∧
      h.starts (.endTask 0 (.loaded .empty)) =
        [⟨⟨2, ⟨1, 1, 0⟩, 2⟩, [⟨3, ⟨1, 1, 1⟩, 2⟩, ⟨1, ⟨1, 0, 0⟩, 1⟩]⟩] := by
    refine ⟨{
      loader := {
        maxConcurrent := 1
        pending := [⟨1, 1, 1⟩, ⟨1, 1, 0⟩, ⟨1, 0, 0⟩, ⟨0, 0, 0⟩]
        queue := [⟨1, ⟨1, 0, 0⟩, 1⟩, ⟨2, ⟨1, 1, 0⟩, 2⟩, ⟨3, ⟨1, 1, 1⟩, 2⟩]
        active := [⟨0, ⟨0, 0, 0⟩, 1⟩]
        nextTicket := 4 }
      made := [⟨0, ⟨0, 0, 0⟩, 1⟩, ⟨1, ⟨1, 0, 0⟩, 1⟩, ⟨2, ⟨1, 1, 0⟩, 2⟩, ⟨3, ⟨1, 1, 1⟩, 2⟩] }, ?_, ?_⟩
    · unfold start
      iterate 9
        refine .cons (by simp [Allows]) ?_
        simp [after, LoaderHistory.request, Loader.request, Loader.isPending, Loader.receive,
          Loader.fill, Loader.places, Nat.repeat, Loader.startNext, Loader.finishBuild]
      exact .nil _
    · simp [starts, filled, Loader.fillStarts, Loader.starts, Loader.places, hsorted]
  have hranked : ∀ t priority, LoaderMove.request t priority ∈
      [.request ⟨0, 0, 0⟩ 1, .request ⟨1, 0, 0⟩ 1, .request ⟨1, 1, 0⟩ 2, .request ⟨1, 1, 1⟩ 2,
        .receive, .receive, .receive, .receive, .endBuild 0] → priority.isNaN = false := by
    intro t priority hmem
    simp only [List.mem_cons, LoaderMove.request.injEq, reduceCtorEq, List.not_mem_nil,
      or_false] at hmem
    rcases hmem with ⟨-, rfl⟩ | ⟨-, rfl⟩ | ⟨-, rfl⟩ | ⟨-, rfl⟩ <;> decide
  have hturn := ((starts_in_order run hranked).2 (.endTask 0 (.loaded .empty))).2
    ⟨⟨2, ⟨1, 1, 0⟩, 2⟩, [⟨3, ⟨1, 1, 1⟩, 2⟩, ⟨1, ⟨1, 0, 0⟩, 1⟩]⟩ (by simp [hstarts])
  exact ⟨_, h, run, hranked, hstarts, (hturn ⟨1, ⟨1, 0, 0⟩, 1⟩ (by simp)).1, by decide,
    (hturn ⟨3, ⟨1, 1, 1⟩, 2⟩ (by simp)).2 (by decide)⟩

end LoaderHistory

end ImplicitTiling
