import ImplicitTiling.Proofs.Loader.History

/-!
# How long a tile stays pending

A tile is pending from a request for it until it is cancelled or a result for it is collected
(`isPending_after`). A result tells its tile and not its request, so this need not be the result of
the request that is waited for: if the tile was cancelled and asked for again, the result of the
earlier request takes it out of the pending tiles, and the later one is on its own from there on
(`late_result_clears_pending`). Where no other request for the tile is underway when it is asked
for, the first result for the tile is its own, and the tile stays pending up to that (`Awaits`).
-/

namespace ImplicitTiling.LoaderHistory

variable {config : LoaderConfig} {h h' : LoaderHistory} {m : LoaderMove} {moves : List LoaderMove}
  {l : Loader} {d : LoadResult} {t : Tile} {ticket : Nat}

/-! ## What a move delivers -/

/-- The results that the owner gets by a move. -/
def delivers (h : LoaderHistory) : LoaderMove → List LoadResult
  | .next => h.loader.results.take 1
  | .poll => h.loader.results
  | _ => []

theorem collected_after (h : LoaderHistory) (m : LoaderMove) :
    (h.after m).collected = h.collected ++ h.delivers m := by
  cases m with
  | request t priority =>
    dsimp only [after, request, delivers]
    split
    · rw [List.append_nil]
    · split <;> rw [List.append_nil]
  | next =>
    cases hresults : h.loader.results with
    | nil => simp [after, next, delivers, Loader.nextResult?, hresults]
    | cons d rest => simp [after, next, delivers, Loader.nextResult?_of_cons hresults, hresults]
  | poll => rfl
  | leave =>
    dsimp only [after, leave, delivers]
    split <;> rw [List.append_nil]
  | _ => exact (List.append_nil _).symm

/-! ## Pending tiles -/

theorem isPending_iff : h.loader.isPending t = true ↔ t ∈ h.loader.pending :=
  List.contains_iff_mem

/-- What a move does to a tile: a request makes it pending, and a cancellation or any result for the
tile makes it not pending. -/
theorem isPending_after (hs : Sound config h) (allowed : Allows config h m) :
    (h.after m).loader.isPending t = true ↔
      (h.loader.isPending t = true ∨ ∃ priority, m = .request t priority) ∧
        m ≠ .cancel t ∧ ∀ d ∈ h.delivers m, d.tile ≠ t := by
  simp only [isPending_iff]
  have hworks {l : Loader} (hworks : h.loader.Works l) : t ∈ l.pending ↔ t ∈ h.loader.pending := by
    rw [hworks.pending]
  cases m with
  | request t' priority =>
    cases hpending : h.loader.isPending t' with
    | true =>
      have hmem := isPending_iff.1 hpending
      simp only [after, request_of_isPending hpending, delivers]
      constructor
      · intro ht
        exact ⟨.inl ht, by simp, by simp⟩
      · rintro ⟨ht | ⟨_, heq⟩, -⟩
        · exact ht
        · obtain ⟨rfl, -⟩ := LoaderMove.request.inj heq
          exact hmem
    | false =>
      simp only [after, request_of_not_isPending hpending (hs.not_stopped allowed),
        Loader.request_of_not_isPending hpending, delivers, List.mem_cons]
      constructor
      · rintro (rfl | ht)
        · exact ⟨.inr ⟨_, rfl⟩, by simp, by simp⟩
        · exact ⟨.inl ht, by simp, by simp⟩
      · rintro ⟨ht | ⟨_, heq⟩, -⟩
        · exact .inr ht
        · exact .inl (LoaderMove.request.inj heq).1.symm
  | cancel t' => simp [after, Loader.cancel, delivers, @eq_comm _ t t']
  | next =>
    obtain ⟨d, l, hnext, heq⟩ := exists_next allowed.2
    obtain ⟨rest, hresults, rfl⟩ := Loader.exists_nextResult? hnext
    simp [heq, delivers, hresults, @eq_comm _ t d.tile]
  | poll => simp [after, poll, Loader.pollResults, delivers]
  | close => simp [after, delivers]
  | receive => simpa [after, delivers] using hworks (hs.busy.receive allowed.2)
  | endBuild ticket => simpa [after, delivers] using hworks (hs.busy.finishBuild ticket)
  | endTask ticket outcome =>
    simpa [after, delivers] using hworks (hs.busy.endTask allowed.2.1 outcome)
  | leave =>
    have hfill := hworks (Loader.works_fill hs.busy.le)
    dsimp only [after, leave]
    split <;> simp [delivers, hfill]

/-- Over a run a tile that is not cancelled stays pending up to the first result for it, and no
longer unless it is asked for again. -/
theorem isPending_of_run (hs : Sound config h) (run : Run config h moves h')
    (hkept : .cancel t ∉ moves) :
    ∃ delivered, h'.collected = h.collected ++ delivered ∧
      (h.loader.isPending t = true → (∀ d ∈ delivered, d.tile ≠ t) →
        h'.loader.isPending t = true) ∧
      ((∀ priority, .request t priority ∉ moves) → h'.loader.isPending t = true →
        h.loader.isPending t = true ∧ ∀ d ∈ delivered, d.tile ≠ t) := by
  induction run with
  | nil h =>
    exact ⟨[], (List.append_nil _).symm, fun ht _ => ht, fun _ ht => ⟨ht, List.forall_mem_nil _⟩⟩
  | @cons h h' m moves allowed _ ih =>
    rw [List.mem_cons, not_or] at hkept
    obtain ⟨delivered, heq, hstays, honly⟩ := ih (hs.after allowed) hkept.2
    have hafter := isPending_after (t := t) hs allowed
    refine ⟨h.delivers m ++ delivered, ?_, ?_, ?_⟩
    · rw [heq, collected_after, List.append_assoc]
    · intro ht hnone
      rw [List.forall_mem_append] at hnone
      exact hstays (hafter.2 ⟨.inl ht, Ne.symm hkept.1, hnone.1⟩) hnone.2
    · intro hunasked ht
      obtain ⟨ht, hnone⟩ := honly (fun p hp => hunasked p (List.mem_cons_of_mem _ hp)) ht
      obtain ⟨ht | ⟨p, rfl⟩, -, hnow⟩ := hafter.1 ht
      · exact ⟨ht, List.forall_mem_append.2 ⟨hnow, hnone⟩⟩
      · exact absurd List.mem_cons_self (hunasked p)

/-! ## The only request for a tile -/

/-- A tile is pending, and no request for it is underway but the one with this ticket. -/
structure Awaits (h : LoaderHistory) (t : Tile) (ticket : Nat) : Prop where
  pending : h.loader.isPending t = true
  only : ∀ k ∈ h.loader.underway, k.2 = t → k.1 = ticket

/-- The result of a request was collected. -/
def Answered (h : LoaderHistory) (ticket : Nat) : Prop :=
  ∃ d ∈ h.collected, d.ticket = ticket

theorem Answered.mono {delivered : List LoadResult} (ha : h.Answered ticket)
    (heq : h'.collected = h.collected ++ delivered) : h'.Answered ticket := by
  obtain ⟨d, hd, hticket⟩ := ha
  exact ⟨d, heq ▸ List.mem_append_left _ hd, hticket⟩

theorem Awaits.works (ha : h.Awaits t ticket) (hworks : h.loader.Works l) :
    Awaits { h with loader := l } t ticket where
  pending := by rw [isPending_iff, hworks.pending, ← isPending_iff]; exact ha.pending
  only k hk := ha.only k (hworks.underway.mem_iff.1 hk)

theorem Awaits.request (ha : h.Awaits t ticket) (hstopped : h.stopped = false) (t' : Tile)
    (priority : Float32) : Awaits (h.request t' priority).2 t ticket := by
  cases hpending : h.loader.isPending t' with
  | true =>
    rw [request_of_isPending hpending]
    exact ha
  | false =>
    rw [request_of_not_isPending hpending hstopped]
    have hunderway := Loader.underway_request hpending priority
    rw [Loader.request_of_not_isPending hpending] at hunderway ⊢
    refine ⟨isPending_iff.2 (List.mem_cons_of_mem _ (isPending_iff.1 ha.pending)), ?_⟩
    intro k hk htile
    rcases List.mem_cons.1 (hunderway.mem_iff.1 hk) with rfl | hk
    · -- The tile is pending, so the new request is for another one.
      have := ha.pending
      simp [← htile, hpending] at this
    · exact ha.only k hk htile

theorem Awaits.collect (ha : h.Awaits t ticket ∨ h.Answered ticket)
    (hnext : h.loader.nextResult? = some (d, l)) :
    Awaits { h with loader := l, collected := h.collected ++ [d] } t ticket ∨
      Answered { h with loader := l, collected := h.collected ++ [d] } ticket := by
  have hunderway := Loader.underway_nextResult? hnext
  obtain ⟨rest, -, rfl⟩ := Loader.exists_nextResult? hnext
  rcases ha with ha | ha
  · by_cases htile : d.tile = t
    · have hown : d.ticket = ticket := ha.only d.key (hunderway.mem_iff.2 List.mem_cons_self) htile
      exact .inr ⟨d, List.mem_append_right _ List.mem_cons_self, hown⟩
    · refine .inl ⟨?_, ?_⟩
      · have hmem := isPending_iff.1 ha.pending
        exact isPending_iff.2 (List.mem_filter.2 ⟨hmem, decide_eq_true (Ne.symm htile)⟩)
      · intro k hk
        exact ha.only k (hunderway.mem_iff.2 (List.mem_cons_of_mem _ hk))
  · exact .inr (ha.mono rfl)

theorem Awaits.cancel (ha : h.Awaits t ticket) {t' : Tile} (hne : t' ≠ t) :
    Awaits { h with loader := h.loader.cancel t' } t ticket where
  pending := by
    have hmem := isPending_iff.1 ha.pending
    exact isPending_iff.2 (List.mem_filter.2 ⟨hmem, decide_eq_true (Ne.symm hne)⟩)
  only := ha.only

theorem Awaits.leave (ha : h.Awaits t ticket) (hs : Sound config h) : Awaits h.leave t ticket := by
  unfold LoaderHistory.leave
  split
  · exact ⟨ha.pending, ha.only⟩
  · exact ha.works (Loader.works_fill hs.busy.le)

/-- What is awaited stays so until it is answered. -/
theorem awaits_or_answered_after (ha : h.Awaits t ticket ∨ h.Answered ticket)
    (hs : Sound config h) (allowed : Allows config h m) (hm : m ≠ .cancel t) :
    (h.after m).Awaits t ticket ∨ (h.after m).Answered ticket := by
  rcases ha with ha | ha
  · cases m with
    | request t' priority => exact .inl (ha.request (hs.not_stopped allowed) t' priority)
    | cancel t' =>
      refine .inl (ha.cancel ?_)
      rintro rfl
      exact hm rfl
    | next =>
      obtain ⟨d, l, hnext, heq⟩ := exists_next allowed.2
      rw [heq]
      exact Awaits.collect (.inl ha) hnext
    | poll =>
      exact poll_of_next (P := fun h => h.Awaits t ticket ∨ h.Answered ticket)
        (fun _ _ _ hnext ha => Awaits.collect ha hnext) (.inl ha)
    | close => exact .inl ⟨ha.pending, ha.only⟩
    | receive => exact .inl (ha.works (hs.busy.receive allowed.2))
    | endBuild ticket' => exact .inl (ha.works (hs.busy.finishBuild ticket'))
    | endTask ticket' outcome => exact .inl (ha.works (hs.busy.endTask allowed.2.1 outcome))
    | leave => exact .inl (ha.leave hs)
  · exact .inr (ha.mono (collected_after h m))

theorem awaits_or_answered_of_run (ha : h.Awaits t ticket ∨ h.Answered ticket)
    (hs : Sound config h) (run : Run config h moves h') (hkept : .cancel t ∉ moves) :
    h'.Awaits t ticket ∨ h'.Answered ticket := by
  induction run with
  | nil => exact ha
  | cons allowed _ ih =>
    rw [List.mem_cons, not_or] at hkept
    exact ih (awaits_or_answered_after ha hs allowed (Ne.symm hkept.1)) (hs.after allowed) hkept.2

/-! ## The main statement -/

/-- The tile is pending, and asking for it again makes no request. -/
def Waits (h : LoaderHistory) (t : Tile) : Prop :=
  h.loader.isPending t = true ∧ ∀ priority, h.request t priority = (.ok false, h)

theorem waits_of_isPending (ht : h.loader.isPending t = true) : h.Waits t :=
  ⟨ht, request_of_isPending ht⟩

theorem Sound.ticket_lt (hs : Sound config h) (hd : d ∈ h.collected) :
    d.ticket < h.loader.nextTicket := by
  have hmade := hs.account.mem_iff.2 (List.mem_append_right _ (List.mem_map_of_mem hd))
  obtain ⟨r, hr, hkey⟩ := List.mem_map.1 hmade
  have hticket : r.ticket = d.ticket := congrArg Prod.fst hkey
  have hmem := List.mem_map_of_mem (f := fun r : LoadRequest => r.ticket) hr
  rwa [hs.tickets, List.mem_range, hticket] at hmem

/-- A request that was made is the only one for its tile, unless there was one underway. -/
theorem awaits_request (hpending : h.loader.isPending t = false) (hstopped : h.stopped = false)
    (halone : ∀ k ∈ h.loader.underway, k.2 ≠ t) (priority : Float32) :
    Awaits (h.request t priority).2 t h.loader.nextTicket := by
  rw [request_of_not_isPending hpending hstopped]
  have hunderway := Loader.underway_request hpending priority
  rw [Loader.request_of_not_isPending hpending] at hunderway ⊢
  refine ⟨isPending_iff.2 List.mem_cons_self, ?_⟩
  intro k hk htile
  rcases List.mem_cons.1 (hunderway.mem_iff.1 hk) with rfl | hk
  · rfl
  · exact absurd htile (halone k hk)

theorem not_isPending_of_request {priority : Float32}
    (hmade : (h.request t priority).1 = .ok true) : h.loader.isPending t = false := by
  cases hpending : h.loader.isPending t with
  | true =>
    rw [request_of_isPending hpending] at hmade
    cases hmade
  | false => rfl

/-- A tile that was asked for and is not cancelled is pending until a result for it is collected,
whichever of its requests that result answers. It is pending until the result of its own request if
no other request for it was underway. -/
theorem pending_until_answered {priority : Float32} {moves' : List LoaderMove}
    (run : Run config (start config) moves h) (hopen : h.closed = false)
    (hmade : (h.request t priority).1 = .ok true)
    (run' : Run config (h.after (.request t priority)) moves' h')
    (hkept : .cancel t ∉ moves') :
    ∃ delivered, h'.collected = h.collected ++ delivered ∧
      ((∀ d ∈ delivered, d.tile ≠ t) → h'.Waits t) ∧
      -- Any result for the tile ends the wait.
      ((∃ d ∈ delivered, d.tile = t) → (∀ priority, .request t priority ∉ moves') →
        h'.loader.isPending t = false ∧
          (h'.closed = false → ∀ priority, (h'.request t priority).1 = .ok true)) ∧
      -- Alone, the request is waited for until its own result.
      ((∀ k ∈ h.loader.underway, k.2 ≠ t) →
        (∀ d ∈ delivered, d.ticket ≠ h.loader.nextTicket) → h'.Waits t) := by
  have hs := sound_of_run run
  have hallowed : Allows config h (.request t priority) := hopen
  have hs' := (hs.after hallowed).run run'
  have hpending := not_isPending_of_request hmade
  have hrequest := request_of_not_isPending hpending (hs.not_stopped hopen) priority
  have hcollected : (h.after (.request t priority)).collected = h.collected := by
    rw [after, hrequest]
  obtain ⟨delivered, heq, hstays, honly⟩ :=
    isPending_of_run (hs.after hallowed) run' hkept
  rw [hcollected] at heq
  refine ⟨delivered, heq, ?_, ?_, ?_⟩
  · intro hnone
    refine waits_of_isPending (hstays ?_ hnone)
    exact (isPending_after hs hallowed).2 ⟨.inr ⟨priority, rfl⟩, by simp, by simp [delivers]⟩
  · rintro ⟨d, hd, htile⟩ hunasked
    have hnot : h'.loader.isPending t = false := by
      by_contra hpending'
      exact (honly hunasked (by simpa using hpending')).2 d hd htile
    refine ⟨hnot, fun hopen' priority' => ?_⟩
    rw [request_of_not_isPending hnot (hs'.not_stopped hopen')]
  · intro halone hnone
    have hawaits := awaits_request hpending (hs.not_stopped hopen) halone priority
    rcases awaits_or_answered_of_run (.inl hawaits) (hs.after hallowed) run' hkept with
      ha | ⟨d, hd, hticket⟩
    · exact waits_of_isPending ha.pending
    · -- Its ticket was new, so its result is not among those collected before.
      rw [heq, List.mem_append] at hd
      rcases hd with hd | hd
      · exact absurd hticket (Nat.ne_of_lt (hs.ticket_lt hd))
      · exact absurd hticket (hnone d hd)

/-- Another tile is delivered while a request is waited for. -/
theorem pending_until_answered_two_tiles :
    ∃ moves h moves' h', Run ⟨2, none⟩ (start ⟨2, none⟩) moves h ∧
      (h.request ⟨1, 1, 0⟩ 1).1 = .ok true ∧
      Run ⟨2, none⟩ (h.after (.request ⟨1, 1, 0⟩ 1)) moves' h' ∧
      h'.collected = [⟨0, ⟨0, 0, 0⟩, .loaded .empty⟩] ∧ h'.Waits ⟨1, 1, 0⟩ := by
  have hrun : Run ⟨2, none⟩ (start ⟨2, none⟩) [.request ⟨0, 0, 0⟩ 1, .receive]
      { loader := {
          maxConcurrent := 2
          pending := [⟨0, 0, 0⟩]
          active := [⟨0, ⟨0, 0, 0⟩, 1⟩]
          building := [⟨0, ⟨0, 0, 0⟩, 1⟩]
          nextTicket := 1 }
        made := [⟨0, ⟨0, 0, 0⟩, 1⟩] } := by
    unfold start
    iterate 2
      refine .cons (by simp [Allows]) ?_
      simp [after, LoaderHistory.request, Loader.request, Loader.isPending, Loader.receive,
        Loader.fill_of_queue_eq_singleton, Loader.startAll]
    exact .nil _
  have hrun' : Run ⟨2, none⟩
      { loader := {
          maxConcurrent := 2
          pending := [⟨1, 1, 0⟩, ⟨0, 0, 0⟩]
          requests := [⟨1, ⟨1, 1, 0⟩, 1⟩]
          active := [⟨0, ⟨0, 0, 0⟩, 1⟩]
          building := [⟨0, ⟨0, 0, 0⟩, 1⟩]
          nextTicket := 2 }
        made := [⟨0, ⟨0, 0, 0⟩, 1⟩, ⟨1, ⟨1, 1, 0⟩, 1⟩] }
      [.endBuild 0, .endTask 0 (.loaded .empty), .next]
      { loader := {
          maxConcurrent := 2
          pending := [⟨1, 1, 0⟩]
          requests := [⟨1, ⟨1, 1, 0⟩, 1⟩]
          nextTicket := 2 }
        made := [⟨0, ⟨0, 0, 0⟩, 1⟩, ⟨1, ⟨1, 1, 0⟩, 1⟩]
        collected := [⟨0, ⟨0, 0, 0⟩, .loaded .empty⟩] } := by
    iterate 3
      refine .cons (by simp [Allows]) ?_
      simp [after, LoaderHistory.next, Loader.finishBuild, Loader.endTask,
        Loader.fill_of_queue_eq_nil, Loader.nextResult?, Loader.cancel]
    exact .nil _
  obtain ⟨delivered, heq, -, -, halone⟩ :=
    pending_until_answered (t := ⟨1, 1, 0⟩) hrun rfl rfl hrun' (by simp)
  obtain rfl : [⟨0, ⟨0, 0, 0⟩, .loaded .empty⟩] = delivered := heq
  have hwaits := halone (by simp [Loader.underway, LoadRequest.key]) (by simp)
  exact ⟨_, _, _, _, hrun, rfl, hrun', rfl, hwaits⟩

/-- The late result of a cancelled request is taken for the result of the next one. -/
theorem late_result_clears_pending :
    ∃ moves h moves' h', Run ⟨1, none⟩ (start ⟨1, none⟩) moves h ∧
      (h.request ⟨0, 0, 0⟩ 1).1 = .ok true ∧
      Run ⟨1, none⟩ (h.after (.request ⟨0, 0, 0⟩ 1)) moves' h' ∧ .cancel ⟨0, 0, 0⟩ ∉ moves' ∧
      (∀ d ∈ h'.collected, d.ticket ≠ h.loader.nextTicket) ∧
      h'.loader.isPending ⟨0, 0, 0⟩ = false ∧ (h'.request ⟨0, 0, 0⟩ 1).1 = .ok true := by
  have hrun : Run ⟨1, none⟩ (start ⟨1, none⟩)
      [.request ⟨0, 0, 0⟩ 1, .receive, .cancel ⟨0, 0, 0⟩]
      { loader := {
          maxConcurrent := 1
          active := [⟨0, ⟨0, 0, 0⟩, 1⟩]
          building := [⟨0, ⟨0, 0, 0⟩, 1⟩]
          nextTicket := 1 }
        made := [⟨0, ⟨0, 0, 0⟩, 1⟩] } := by
    unfold start
    iterate 3
      refine .cons (by simp [Allows]) ?_
      simp [after, LoaderHistory.request, Loader.request, Loader.isPending, Loader.receive,
        Loader.fill_of_queue_eq_singleton, Loader.startAll, Loader.cancel]
    exact .nil _
  have hrun' : Run ⟨1, none⟩
      { loader := {
          maxConcurrent := 1
          pending := [⟨0, 0, 0⟩]
          requests := [⟨1, ⟨0, 0, 0⟩, 1⟩]
          active := [⟨0, ⟨0, 0, 0⟩, 1⟩]
          building := [⟨0, ⟨0, 0, 0⟩, 1⟩]
          nextTicket := 2 }
        made := [⟨0, ⟨0, 0, 0⟩, 1⟩, ⟨1, ⟨0, 0, 0⟩, 1⟩] }
      [.endBuild 0, .endTask 0 (.loaded .empty), .next]
      { loader := {
          maxConcurrent := 1
          requests := [⟨1, ⟨0, 0, 0⟩, 1⟩]
          nextTicket := 2 }
        made := [⟨0, ⟨0, 0, 0⟩, 1⟩, ⟨1, ⟨0, 0, 0⟩, 1⟩]
        collected := [⟨0, ⟨0, 0, 0⟩, .loaded .empty⟩] } := by
    iterate 3
      refine .cons (by simp [Allows]) ?_
      simp [after, LoaderHistory.next, Loader.finishBuild, Loader.endTask,
        Loader.fill_of_queue_eq_nil, Loader.nextResult?, Loader.cancel]
    exact .nil _
  exact ⟨_, _, _, _, hrun, rfl, hrun', by simp, by simp, rfl, rfl⟩

end ImplicitTiling.LoaderHistory
