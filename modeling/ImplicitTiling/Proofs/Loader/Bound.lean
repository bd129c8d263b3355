import ImplicitTiling.Proofs.Loader.History
import Mathlib.Data.List.Perm.Subperm

/-!
# Builds at the same time

The places of a loader limit its tasks. A build ends before its task, unless the task is given up: its
place is free then, and the build goes on. So the builds whose tasks were not given up are no more than
there are places, and without a deadline these are all builds (`builds_le`). With a deadline the builds
that go on pile up to any number, however few the places are (`exists_run_building`).
-/

namespace ImplicitTiling.LoaderHistory

variable {config : LoaderConfig} {h h' : LoaderHistory} {m : LoaderMove} {moves : List LoaderMove}
  {l : Loader} {d : LoadResult} {ticket : Nat}

/-- The task of a request was given up. -/
def GaveUp (h : LoaderHistory) (ticket : Nat) : Prop :=
  ∃ d ∈ h.loader.results ++ h.collected, d.ticket = ticket ∧ d.outcome = .timedOut

instance (h : LoaderHistory) (ticket : Nat) : Decidable (h.GaveUp ticket) :=
  inferInstanceAs (Decidable (∃ d ∈ h.loader.results ++ h.collected, _))

/-- Every build belongs to an active task or to one that was given up. -/
structure Attended (config : LoaderConfig) (h : LoaderHistory) : Prop where
  builds : ∃ outlived, h.loader.building.Subperm (h.loader.active ++ outlived) ∧
    ∀ r ∈ outlived, h.GaveUp r.ticket
  /-- Only a deadline makes the worker give up. -/
  deadline : ∀ ticket, h.GaveUp ticket → config.deadline.isSome

theorem attended_start (config : LoaderConfig) : Attended config (start config) :=
  ⟨⟨[], .refl _, nofun⟩, nofun⟩

/-! ## What a move does -/

theorem Attended.fill (ha : Attended config { h with loader := l }) :
    Attended config { h with loader := l.fill } := by
  obtain ⟨started, rest, -, -, heq⟩ :=
    Loader.exists_repeat_startNext (l.places - l.active.length) l
  obtain ⟨outlived, hbuilds, hgaveUp⟩ := ha.builds
  rw [Loader.fill, heq]
  refine ⟨⟨outlived, ?_, hgaveUp⟩, ha.deadline⟩
  -- What is started goes to the active tasks and to the builds alike.
  have hstarted := hbuilds.append (List.Subperm.refl started)
  refine hstarted.trans (List.Perm.subperm ?_)
  simp only [Loader.startAll, List.append_assoc]
  exact List.perm_append_comm.append_left _

theorem Attended.receive (ha : Attended config h) (hrequests : h.loader.requests ≠ []) :
    Attended config { h with loader := h.loader.receive } := by
  obtain ⟨r, rest, hcons⟩ := List.exists_cons_of_ne_nil hrequests
  rw [Loader.receive_of_cons hcons]
  exact Attended.fill ⟨ha.builds, ha.deadline⟩

theorem Attended.finishBuild (ha : Attended config h) (ticket : Nat) :
    Attended config { h with loader := h.loader.finishBuild ticket } := by
  obtain ⟨outlived, hbuilds, hgaveUp⟩ := ha.builds
  exact ⟨⟨outlived, List.filter_sublist.subperm.trans hbuilds, hgaveUp⟩, ha.deadline⟩

theorem gaveUp_answer {active : List LoadRequest} {r : LoadRequest} {outcome : LoadOutcome} :
    GaveUp { h with loader := { h.loader with
        active, results := h.loader.results ++ [⟨r.ticket, r.tile, outcome⟩] } } ticket ↔
      h.GaveUp ticket ∨ r.ticket = ticket ∧ outcome = .timedOut := by
  simp only [GaveUp, List.mem_append, List.mem_singleton, or_and_right, exists_or, exists_eq_left]
  exact or_right_comm

theorem Attended.endTask (ha : Attended config h)
    (hactive : ∃ r ∈ h.loader.active, r.ticket = ticket) {outcome : LoadOutcome}
    (hwhy : if outcome = .timedOut then config.deadline.isSome = true
      else ∀ r ∈ h.loader.building, r.ticket ≠ ticket) :
    Attended config { h with loader := h.loader.endTask ticket outcome } := by
  obtain ⟨r, hr, hticket, heq⟩ := Loader.exists_endTask hactive outcome
  obtain ⟨outlived, hbuilds, hgaveUp⟩ := ha.builds
  rw [heq]
  refine Attended.fill ?_
  by_cases htimedOut : outcome = .timedOut
  · rw [if_pos htimedOut] at hwhy
    refine ⟨⟨r :: outlived, ?_, ?_⟩, fun _ _ => hwhy⟩
    · refine hbuilds.trans (List.Perm.subperm ?_)
      exact ((List.perm_cons_erase hr).append_right _).trans List.perm_middle.symm
    · intro r' hr'
      rw [gaveUp_answer]
      rcases List.mem_cons.1 hr' with rfl | hr'
      · exact .inr ⟨rfl, htimedOut⟩
      · exact .inl (hgaveUp r' hr')
  · rw [if_neg htimedOut] at hwhy
    refine ⟨⟨outlived, ?_, fun r' hr' => gaveUp_answer.2 (.inl (hgaveUp r' hr'))⟩, ?_⟩
    · -- The build of the task is over.
      have hbuilt : r ∉ h.loader.building := fun hbuilding => hwhy r hbuilding hticket
      have hrest := hbuilds.erase r
      rwa [List.erase_of_not_mem hbuilt, List.erase_append_left _ hr] at hrest
    · intro ticket' hgaveUp'
      rcases gaveUp_answer.1 hgaveUp' with hold | ⟨-, hout⟩
      · exact ha.deadline ticket' hold
      · exact absurd hout htimedOut

theorem Attended.collect (ha : Attended config h) (hnext : h.loader.nextResult? = some (d, l)) :
    Attended config { h with loader := l, collected := h.collected ++ [d] } := by
  obtain ⟨rest, hresults, rfl⟩ := Loader.exists_nextResult? hnext
  obtain ⟨outlived, hbuilds, hgaveUp⟩ := ha.builds
  have hmem (d' : LoadResult) :
      d' ∈ h.loader.results ++ h.collected ↔ d' ∈ rest ++ (h.collected ++ [d]) := by
    simp only [hresults, List.mem_append, List.mem_cons, List.not_mem_nil]
    tauto
  simp only [GaveUp, hmem] at hgaveUp
  refine ⟨⟨outlived, hbuilds, hgaveUp⟩, ?_⟩
  rintro ticket ⟨d', hd', hgaveUp'⟩
  exact ha.deadline ticket ⟨d', (hmem d').2 hd', hgaveUp'⟩

theorem Attended.leave (ha : Attended config h) : Attended config h.leave := by
  unfold LoaderHistory.leave
  split
  · exact ⟨ha.builds, ha.deadline⟩
  · exact Attended.fill ha

theorem Attended.request (ha : Attended config h) (t : Tile) (priority : Float32) :
    Attended config (h.request t priority).2 := by
  unfold LoaderHistory.request Loader.request
  split
  · exact ha
  · split <;> exact ⟨ha.builds, ha.deadline⟩

theorem Attended.after (ha : Attended config h) (allowed : Allows config h m) :
    Attended config (h.after m) := by
  cases m with
  | request t priority => exact ha.request t priority
  | cancel t => exact ⟨ha.builds, ha.deadline⟩
  | next =>
    obtain ⟨d, l, hnext, heq⟩ := exists_next allowed.2
    rw [heq]
    exact ha.collect hnext
  | poll => exact poll_of_next (P := Attended config) (fun _ _ _ hnext ha => ha.collect hnext) ha
  | close => exact ⟨ha.builds, ha.deadline⟩
  | receive => exact ha.receive allowed.2
  | endBuild ticket => exact ha.finishBuild ticket
  | endTask ticket outcome => exact ha.endTask allowed.2.1 allowed.2.2
  | leave => exact ha.leave

theorem Attended.run (ha : Attended config h) (run : Run config h moves h') :
    Attended config h' := by
  induction run with
  | nil => exact ha
  | cons allowed _ ih => exact ih (ha.after allowed)

theorem attended_of_run (run : Run config (start config) moves h) : Attended config h :=
  (attended_start config).run run

/-! ## The bound -/

/-- One place, and a task that is given up while it builds. -/
theorem run_two_tiles : Run ⟨1, some 10⟩ (start ⟨1, some 10⟩)
    [.request ⟨0, 0, 0⟩ 1, .receive, .endTask 0 .timedOut, .request ⟨1, 0, 0⟩ 1, .receive]
    { loader := {
        maxConcurrent := 1
        pending := [⟨1, 0, 0⟩, ⟨0, 0, 0⟩]
        active := [⟨1, ⟨1, 0, 0⟩, 1⟩]
        building := [⟨0, ⟨0, 0, 0⟩, 1⟩, ⟨1, ⟨1, 0, 0⟩, 1⟩]
        results := [⟨0, ⟨0, 0, 0⟩, .timedOut⟩]
        nextTicket := 2 }
      made := [⟨0, ⟨0, 0, 0⟩, 1⟩, ⟨1, ⟨1, 0, 0⟩, 1⟩] } := by
  unfold start
  iterate 5
    refine .cons (by simp [Allows]) ?_
    simp [after, LoaderHistory.request, Loader.request, Loader.isPending, Loader.receive,
      Loader.fill_of_queue_eq_nil, Loader.fill_of_queue_eq_singleton, Loader.startAll,
      Loader.endTask]
  exact .nil _

/-- The builds whose tasks were not given up are no more than there are places, and so are all builds
if there is no deadline. -/
theorem builds_le (run : Run config (start config) moves h) :
    (h.loader.building.filter fun r => ¬ h.GaveUp r.ticket).length ≤ max 1 config.maxConcurrent ∧
    (config.deadline = none → h.loader.building.length ≤ max 1 config.maxConcurrent) := by
  have hs := sound_of_run run
  have ha := attended_of_run run
  obtain ⟨outlived, hbuilds, hgaveUp⟩ := ha.builds
  have hactive : h.loader.active.length ≤ max 1 config.maxConcurrent := hs.places ▸ hs.busy.le
  have hbound : (h.loader.building.filter fun r => ¬ h.GaveUp r.ticket).length ≤
      max 1 config.maxConcurrent := by
    have hfilter := (hbuilds.filter fun r => ¬ h.GaveUp r.ticket).length_le
    have hnone : (outlived.filter fun r => ¬ h.GaveUp r.ticket) = [] :=
      List.filter_eq_nil_iff.2 fun r hr => by simpa using hgaveUp r hr
    rw [List.filter_append, hnone, List.append_nil] at hfilter
    exact Nat.le_trans hfilter (Nat.le_trans (List.length_filter_le _ _) hactive)
  refine ⟨hbound, fun hdeadline => ?_⟩
  have hall : (h.loader.building.filter fun r => ¬ h.GaveUp r.ticket) = h.loader.building := by
    refine List.filter_eq_self.2 fun r _ => ?_
    have hnever : ¬ h.GaveUp r.ticket := fun hgaveUp => by
      have := ha.deadline r.ticket hgaveUp
      simp [hdeadline] at this
    simpa using hnever
  rwa [hall] at hbound

theorem builds_le_two_tiles :
    (∃ moves h, Run ⟨1, some 10⟩ (start ⟨1, some 10⟩) moves h ∧
      (h.loader.building.filter fun r => ¬ h.GaveUp r.ticket).length ≤ max 1 1) ∧
    ∃ moves h, Run ⟨1, none⟩ (start ⟨1, none⟩) moves h ∧
      h.loader.building = [⟨0, ⟨0, 0, 0⟩, 1⟩] ∧ h.loader.building.length ≤ max 1 1 := by
  have hrun : Run ⟨1, none⟩ (start ⟨1, none⟩) [.request ⟨0, 0, 0⟩ 1, .receive]
      { loader := {
          maxConcurrent := 1
          pending := [⟨0, 0, 0⟩]
          active := [⟨0, ⟨0, 0, 0⟩, 1⟩]
          building := [⟨0, ⟨0, 0, 0⟩, 1⟩]
          nextTicket := 1 }
        made := [⟨0, ⟨0, 0, 0⟩, 1⟩] } := by
    unfold start
    iterate 2
      refine .cons (by simp [Allows]) ?_
      simp [after, LoaderHistory.request, Loader.request, Loader.isPending, Loader.receive,
        Loader.fill_of_queue_eq_singleton, Loader.startAll]
    exact .nil _
  have hgivenUp := (builds_le run_two_tiles).1
  have hall := (builds_le hrun).2 rfl
  exact ⟨⟨_, _, run_two_tiles, hgivenUp⟩, _, _, hrun, rfl, hall⟩

theorem two_builds_at_one_place :
    ∃ h, Run ⟨1, some 10⟩ (start ⟨1, some 10⟩)
        [.request ⟨0, 0, 0⟩ 1, .receive, .endTask 0 .timedOut, .request ⟨1, 0, 0⟩ 1, .receive] h ∧
      max 1 1 < h.loader.building.length :=
  ⟨_, run_two_tiles, by decide⟩

/-- With a deadline any number of builds may go on at the same time. -/
theorem exists_run_building (hdeadline : config.deadline.isSome = true) (n : Nat) :
    ∃ moves h, Run config (start config) moves h ∧ h.loader.building.length = n := by
  suffices ∃ moves building made collected, Run config (start config) moves
      { loader := { maxConcurrent := config.maxConcurrent, building, nextTicket := n }
        made, collected } ∧ building.length = n by
    obtain ⟨moves, building, made, collected, run, hlength⟩ := this
    exact ⟨moves, _, run, hlength⟩
  induction n with
  | zero => exact ⟨[], [], [], [], .nil _, rfl⟩
  | succ n ih =>
    obtain ⟨moves, building, made, collected, run, hlength⟩ := ih
    refine ⟨moves ++ [.request ⟨0, 0, 0⟩ 0, .receive, .endTask n .timedOut, .next],
      building ++ [⟨n, ⟨0, 0, 0⟩, 0⟩], made ++ [⟨n, ⟨0, 0, 0⟩, 0⟩],
      collected ++ [⟨n, ⟨0, 0, 0⟩, .timedOut⟩], run.append ?_, by simp [hlength]⟩
    iterate 4
      refine .cons (by simp [Allows, hdeadline]) ?_
      simp [after, LoaderHistory.request, LoaderHistory.next, Loader.request, Loader.isPending,
        Loader.receive, Loader.fill_of_queue_eq_nil, Loader.fill_of_queue_eq_singleton,
        Loader.startAll, Loader.endTask, Loader.nextResult?, Loader.cancel]
    exact .nil _

end ImplicitTiling.LoaderHistory
