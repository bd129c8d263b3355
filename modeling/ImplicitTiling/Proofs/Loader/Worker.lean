import ImplicitTiling.Loader.Basic
import Mathlib.Data.List.Perm.Basic

/-!
# The steps of a loader

Where the requests are after each step of the owner and of the worker. A request waits in its channel
or in the queue, or its task is active, or its result is on the way: `underway` lists them all. The
owner adds a request (`underway_request`) and takes out a result (`underway_nextResult?`), and the
worker only moves requests on (`Works`).

Every step of the worker ends with filling the places. That starts some of the queue, and leaves no
request waiting while a place is free (`exists_fill`).
-/

namespace ImplicitTiling

/-- The ticket and the tile, which a request and its result have in common. -/
def LoadRequest.key (r : LoadRequest) : Nat × Tile :=
  (r.ticket, r.tile)

/-- The ticket and the tile, which a result and its request have in common. -/
def LoadResult.key (d : LoadResult) : Nat × Tile :=
  (d.ticket, d.tile)

namespace Loader

variable {l l' : Loader} {ticket : Nat} {t : Tile} {r : LoadRequest} {d : LoadResult}
  {started rest : List LoadRequest} {outcome : LoadOutcome}

/-- The requests whose results are not collected, by ticket and tile: in their channel, in the queue,
with an active task, or with a result on its way. -/
def underway (l : Loader) : List (Nat × Tile) :=
  (l.requests ++ l.queue ++ l.active).map LoadRequest.key ++ l.results.map LoadResult.key

/-- The places are used as far as there are requests for them. -/
structure Busy (l : Loader) : Prop where
  le : l.active.length ≤ l.places
  full : l.queue = [] ∨ l.active.length = l.places

/-- What a step of the worker does to a loader, whichever it is: it loses no request, lets no request
wait while a place is free, and keeps what belongs to the owner. -/
structure Works (l l' : Loader) : Prop where
  underway : l'.underway.Perm l.underway
  busy : l'.Busy
  places : l'.places = l.places
  pending : l'.pending = l.pending
  nextTicket : l'.nextTicket = l.nextTicket

/-! ## Starting -/

/-- The loader once the worker has started some requests, with what is left of the queue. -/
def startAll (l : Loader) (started rest : List LoadRequest) : Loader :=
  { l with queue := rest, active := l.active ++ started, building := l.building ++ started }

theorem underway_startAll (h : l.queue.Perm (started ++ rest)) :
    (l.startAll started rest).underway.Perm l.underway := by
  rw [List.perm_iff_count]
  intro a
  have hcount := (h.map LoadRequest.key).count_eq a
  simp only [List.map_append, List.count_append] at hcount
  simp only [underway, startAll, List.map_append, List.count_append]
  omega

theorem startNext_of_queue_eq_nil (h : l.queue = []) : l.startNext = l := by
  simp [startNext, h]

theorem exists_startNext (h : l.queue ≠ []) :
    ∃ r rest, l.queue.Perm (r :: rest) ∧ l.startNext = l.startAll [r] rest := by
  have hsorted := List.mergeSort_perm l.queue comesFirst
  unfold startNext
  split
  next hnil =>
    rw [hnil] at hsorted
    exact absurd hsorted.symm.eq_nil h
  next r rest hcons => exact ⟨r, rest, by rw [← hcons]; exact hsorted.symm, rfl⟩

theorem exists_repeat_startNext (n : Nat) (l : Loader) :
    ∃ started rest, l.queue.Perm (started ++ rest) ∧ started.length = min n l.queue.length ∧
      n.repeat startNext l = l.startAll started rest := by
  induction n with
  | zero => exact ⟨[], l.queue, .refl _, by simp, by simp [Nat.repeat, startAll]⟩
  | succ n ih =>
    obtain ⟨started, rest, hperm, hlength, heq⟩ := ih
    have htotal := hperm.length_eq
    rw [List.length_append] at htotal
    rw [Nat.repeat, heq]
    by_cases hrest : rest = []
    · subst hrest
      refine ⟨started, [], hperm, ?_, startNext_of_queue_eq_nil rfl⟩
      rw [List.length_nil] at htotal
      omega
    · obtain ⟨r, rest', hperm', heq'⟩ := exists_startNext (l := l.startAll started rest) hrest
      have hrest' : rest.length = rest'.length + 1 := hperm'.length_eq
      refine ⟨started ++ [r], rest', ?_, ?_, ?_⟩
      · rw [List.append_assoc]
        exact hperm.trans (hperm'.append_left started)
      · rw [List.length_append, List.length_singleton]
        omega
      · rw [heq']
        simp [startAll]

/-- Filling the places starts some of the queue, and no request waits while a place is free. -/
theorem exists_fill (h : l.active.length ≤ l.places) :
    ∃ started rest, l.queue.Perm (started ++ rest) ∧ l.fill = l.startAll started rest ∧
      (l.startAll started rest).Busy := by
  obtain ⟨started, rest, hperm, hlength, heq⟩ :=
    exists_repeat_startNext (l.places - l.active.length) l
  have htotal := hperm.length_eq
  have hactive : (l.startAll started rest).active.length = l.active.length + started.length :=
    List.length_append
  have hplaces : (l.startAll started rest).places = l.places := rfl
  rw [List.length_append] at htotal
  refine ⟨started, rest, hperm, heq, by omega, ?_⟩
  by_cases hrest : rest = []
  · exact .inl hrest
  · have := List.length_pos_iff.2 hrest
    exact .inr (by omega)

theorem works_fill (h : l.active.length ≤ l.places) : l.Works l.fill := by
  obtain ⟨started, rest, hperm, heq, hbusy⟩ := exists_fill h
  rw [heq]
  exact ⟨underway_startAll hperm, hbusy, rfl, rfl, rfl⟩

theorem fill_of_queue_eq_nil (h : l.queue = []) : l.fill = l := by
  obtain ⟨started, rest, hperm, -, heq⟩ :=
    exists_repeat_startNext (l.places - l.active.length) l
  obtain ⟨rfl, rfl⟩ := List.append_eq_nil_iff.1 (h ▸ hperm).nil_eq.symm
  have hstart : l.startAll [] [] = { l with queue := [] } := by simp [startAll]
  rw [fill, heq, hstart, ← h]

theorem fill_of_queue_eq_singleton (h : l.queue = [r]) (hactive : l.active = []) :
    l.fill = l.startAll [r] [] := by
  have hplaces : 1 ≤ l.places := Nat.le_max_left ..
  obtain ⟨started, rest, hperm, heq, hbusy⟩ := exists_fill (l := l) (by simp [hactive])
  rw [h] at hperm
  have hlength := hperm.length_eq
  have hrest : rest = [] := by
    rcases hbusy.full with hrest | hfull
    · exact hrest
    · have hstarted : (l.active ++ started).length = l.places := hfull
      refine List.length_eq_zero_iff.1 ?_
      rw [hactive, List.nil_append] at hstarted
      rw [List.length_append, List.length_singleton] at hlength
      omega
  subst hrest
  rw [heq, List.singleton_perm.1 (by simpa using hperm)]

/-! ## The worker -/

/-- Filling the places after a change that loses no request. -/
theorem Works.of_fill (h : l'.active.length ≤ l'.places) (hunderway : l'.underway.Perm l.underway)
    (hplaces : l'.places = l.places) (hpending : l'.pending = l.pending)
    (hticket : l'.nextTicket = l.nextTicket) : l.Works l'.fill where
  underway := (works_fill h).underway.trans hunderway
  busy := (works_fill h).busy
  places := (works_fill h).places.trans hplaces
  pending := (works_fill h).pending.trans hpending
  nextTicket := (works_fill h).nextTicket.trans hticket

theorem receive_of_cons (h : l.requests = r :: rest) :
    l.receive = fill { l with requests := rest, queue := l.queue ++ [r] } := by
  simp [receive, h]

theorem Busy.receive (h : l.Busy) (hrequests : l.requests ≠ []) : l.Works l.receive := by
  obtain ⟨r, rest, hcons⟩ := List.exists_cons_of_ne_nil hrequests
  rw [receive_of_cons hcons]
  refine .of_fill h.le ?_ rfl rfl rfl
  rw [List.perm_iff_count]
  intro a
  simp only [underway, hcons, List.map_append, List.map_cons, List.map_nil, List.count_append,
    List.count_cons, List.count_nil]
  omega

theorem exists_endTask (h : ∃ r ∈ l.active, r.ticket = ticket) (outcome : LoadOutcome) :
    ∃ r ∈ l.active, r.ticket = ticket ∧
      l.endTask ticket outcome = fill { l with
        active := l.active.erase r
        results := l.results ++ [⟨r.ticket, r.tile, outcome⟩] } := by
  have hfound : (l.active.find? (·.ticket == ticket)).isSome := by
    simpa [List.find?_isSome] using h
  obtain ⟨r, hr⟩ := Option.isSome_iff_exists.1 hfound
  have hticket : r.ticket = ticket := by simpa using List.find?_some hr
  exact ⟨r, List.mem_of_find?_eq_some hr, hticket, by simp [endTask, hr, hticket]⟩

theorem Busy.endTask (h : l.Busy) (hactive : ∃ r ∈ l.active, r.ticket = ticket)
    (outcome : LoadOutcome) : l.Works (l.endTask ticket outcome) := by
  obtain ⟨r, hr, -, heq⟩ := exists_endTask hactive outcome
  rw [heq]
  refine .of_fill (Nat.le_trans List.length_erase_le h.le) ?_ rfl rfl rfl
  rw [List.perm_iff_count]
  intro a
  have hcount := ((List.perm_cons_erase hr).map LoadRequest.key).count_eq a
  simp only [List.map_cons, List.count_cons, LoadRequest.key] at hcount
  simp only [underway, List.map_append, List.map_cons, List.map_nil, List.count_append,
    List.count_cons, List.count_nil, LoadResult.key]
  omega

theorem Busy.finishBuild (h : l.Busy) (ticket : Nat) : l.Works (l.finishBuild ticket) :=
  ⟨.refl _, ⟨h.le, h.full⟩, rfl, rfl, rfl⟩

/-! ## The owner -/

theorem request_of_isPending (h : l.isPending t = true) (priority : Float32) :
    l.request t priority = (false, l) := by
  simp [request, h]

theorem request_of_not_isPending (h : l.isPending t = false) (priority : Float32) :
    l.request t priority = (true, { l with
      pending := t :: l.pending
      requests := l.requests ++ [⟨l.nextTicket, t, priority⟩]
      nextTicket := l.nextTicket + 1 }) := by
  simp [request, h]

theorem underway_request (h : l.isPending t = false) (priority : Float32) :
    (l.request t priority).2.underway.Perm ((l.nextTicket, t) :: l.underway) := by
  rw [request_of_not_isPending h, List.perm_iff_count]
  intro a
  simp only [underway, List.map_append, List.map_cons, List.map_nil, List.count_append,
    List.count_cons, List.count_nil, LoadRequest.key]
  omega

theorem nextResult?_of_cons {results : List LoadResult} (h : l.results = d :: results) :
    l.nextResult? = some (d, { l.cancel d.tile with results }) := by
  simp [nextResult?, h]

theorem exists_nextResult? (h : l.nextResult? = some (d, l')) :
    ∃ rest, l.results = d :: rest ∧
      l' = { l with pending := l.pending.filter (· ≠ d.tile), results := rest } := by
  unfold nextResult? at h
  split at h
  · cases h
  next d' rest hresults =>
    obtain ⟨rfl, rfl⟩ := Prod.mk.inj (Option.some.inj h)
    exact ⟨rest, hresults, rfl⟩

theorem underway_nextResult? (h : l.nextResult? = some (d, l')) :
    l.underway.Perm (d.key :: l'.underway) := by
  obtain ⟨rest, hresults, rfl⟩ := exists_nextResult? h
  simp only [underway, hresults, List.map_cons]
  exact List.perm_middle

theorem pollResults_of_nil (h : l.results = []) : l.pollResults = ([], l) := by
  obtain ⟨_, _, _, _, _, _, _, _⟩ := l
  obtain rfl := h
  simp [pollResults]

/-- Collecting all results is collecting the oldest one again and again. -/
theorem pollResults_of_nextResult? (h : l.nextResult? = some (d, l')) :
    l.pollResults = (d :: l'.pollResults.1, l'.pollResults.2) := by
  obtain ⟨rest, hresults, rfl⟩ := exists_nextResult? h
  simp [pollResults, hresults, List.filter_filter, Bool.and_comm, eq_comm]

end Loader

end ImplicitTiling
