import ImplicitTiling.Proofs.Store.Nesting
import ImplicitTiling.Proofs.Store.Service
import Mathlib.Data.Set.Finite.Lemmas

/-!
# Requests do not wait in a circle

Any number of requests for any tiles are under way at once, and a lock is granted while nobody holds
it. Each request takes locks at ever deeper levels (`Store.nests_get`). So a request that waits for a
lock waits for one that is held by a request which itself waits, if at all, for a deeper lock, and the
one that waits for the deepest lock waits for nobody who waits: some request can always go on
(`never_deadlocked`). Nothing is assumed of the oracle and the cache.
-/

namespace ImplicitTiling.Store

open RunningBuild (heldAfter)

/-! ## Requests under way -/

/-- A request goes one step on, however it is answered. A lock is granted only if nobody holds it, the
request itself included. -/
inductive Advances : List Job → List Job → Prop
  | step (front back : List Job) {t : Tile} {held : List Node} {a : Action}
      {next : a.Answer → Routine (Except Error ByteArray)} (answer : a.Answer)
      (hfree : ∀ n, a = .lock n →
        n ∉ (front ++ ⟨t, held, .ask a next⟩ :: back).flatMap Job.held) :
    Advances (front ++ ⟨t, held, .ask a next⟩ :: back)
      (front ++ ⟨t, heldAfter held a, next answer⟩ :: back)

/-- What can come about when tiles are requested at any time and the requests go on in any order. -/
inductive UnderWay (s : Schedule) : List Job → Prop
  | start : UnderWay s []
  | request {jobs : List Job} (h : UnderWay s jobs) (t : Tile) :
    UnderWay s (⟨t, [], (get s t).run⟩ :: jobs)
  | advance {jobs jobs' : List Job} (h : UnderWay s jobs) (hstep : Advances jobs jobs') :
    UnderWay s jobs'

/-- The request has something left to do. -/
def Job.Unfinished (j : Job) : Prop :=
  ∀ result, j.rest ≠ .done result

theorem Job.Unfinished.exists_ask {j : Job} (h : j.Unfinished) :
    ∃ a next, j.rest = .ask a next := by
  unfold Unfinished at h
  cases hrest : j.rest with
  | done result => exact absurd hrest (h result)
  | ask a next => exact ⟨a, next, rfl⟩

/-- The locks of a request were taken at ever deeper levels, and it goes on in this way until it has
given all of them back. -/
structure Job.Nested (j : Job) : Prop where
  descending : j.held.Pairwise fun later earlier => earlier.level < later.level
  keeps : j.rest.Keeps nesting (fun _ held => held = []) j.held

variable {s : Schedule} {jobs jobs' : List Job} {t : Tile} {held : List Node} {a : Action}
  {next : a.Answer → Routine (Except Error ByteArray)}

theorem Job.nested_get (s : Schedule) (t : Tile) : Job.Nested ⟨t, [], (get s t).run⟩ where
  descending := .nil
  keeps := nests_get s t [] fun _ h => nomatch h

theorem Job.Nested.asks (h : Job.Nested ⟨t, held, .ask a next⟩) : nesting.Asks held a :=
  (h.keeps held rfl).1

theorem Job.Nested.unfinished {j : Job} (h : j.Nested) {n : Node} (hn : n ∈ j.held) :
    j.Unfinished := by
  intro result hrest
  have hkeeps := h.keeps
  rw [hrest] at hkeeps
  have hnone : j.held = [] := hkeeps j.held rfl
  rw [hnone] at hn
  cases hn

theorem Job.Nested.advance (h : Job.Nested ⟨t, held, .ask a next⟩) (answer : a.Answer) :
    Job.Nested ⟨t, heldAfter held a, next answer⟩ where
  descending := by
    have hasks := h.asks
    cases a with
    | lock n => exact List.pairwise_cons.2 ⟨hasks, h.descending⟩
    | unlock n =>
      obtain ⟨outer, rfl⟩ := hasks
      exact h.descending.sublist List.erase_sublist
    | _ => exact h.descending
  keeps := (h.keeps held rfl).2 answer _ rfl

theorem Advances.nested (hstep : Advances jobs jobs') (h : ∀ j ∈ jobs, j.Nested) :
    ∀ j ∈ jobs', j.Nested := by
  cases hstep with
  | step front back answer hfree =>
    rw [List.forall_mem_append, List.forall_mem_cons] at h ⊢
    exact ⟨h.1, h.2.1.advance answer, h.2.2⟩

theorem UnderWay.nested (h : UnderWay s jobs) : ∀ j ∈ jobs, j.Nested := by
  induction h with
  | start => exact fun _ h => nomatch h
  | request _ t ih => exact List.forall_mem_cons.2 ⟨Job.nested_get s t, ih⟩
  | advance _ hstep ih => exact hstep.nested ih

/-! ## Waiting -/

/-- The request waits for a lock that somebody holds. -/
def Job.WaitsFor (jobs : List Job) (j : Job) (n : Node) : Prop :=
  (∃ next, j.rest = .ask (.lock n) next) ∧ n ∈ jobs.flatMap Job.held

/-- Some request can go on, however it is answered. -/
def CanAdvance (jobs : List Job) : Prop :=
  ∃ (front back : List Job) (t : Tile) (held : List Node) (a : Action)
    (next : a.Answer → Routine (Except Error ByteArray)),
    jobs = front ++ ⟨t, held, .ask a next⟩ :: back ∧
      ∀ answer, Advances jobs (front ++ ⟨t, heldAfter held a, next answer⟩ :: back)

theorem exists_waitsFor (hstuck : ¬ CanAdvance jobs) {j : Job} (hj : j ∈ jobs)
    (hopen : j.Unfinished) : ∃ n, j.WaitsFor jobs n := by
  obtain ⟨a, next, hrest⟩ := hopen.exists_ask
  obtain ⟨t, held, rest⟩ := j
  obtain rfl : rest = .ask a next := hrest
  by_contra hnone
  obtain ⟨front, back, rfl⟩ := List.append_of_mem hj
  refine hstuck ⟨front, back, t, held, a, next, rfl, fun answer => .step front back answer ?_⟩
  rintro n rfl hn
  exact hnone ⟨n, ⟨next, rfl⟩, hn⟩

/-- Who waits for a lock waits for somebody who is not finished, and who can wait only for a deeper
one. -/
theorem Job.WaitsFor.deeper (hnested : ∀ j ∈ jobs, j.Nested) (hstuck : ¬ CanAdvance jobs) {j : Job}
    {n : Node} (h : j.WaitsFor jobs n) :
    ∃ j' ∈ jobs, ∃ n', j'.WaitsFor jobs n' ∧ n.level < n'.level := by
  obtain ⟨j', hj', hn⟩ := List.mem_flatMap.1 h.2
  have hnested' := hnested j' hj'
  obtain ⟨n', hwaits⟩ := exists_waitsFor hstuck hj' (hnested'.unfinished hn)
  obtain ⟨next, hrest⟩ := hwaits.1
  have hasks : nesting.Asks j'.held (.lock n') := by
    have hkeeps := hnested'.keeps
    rw [hrest] at hkeeps
    exact (hkeeps j'.held rfl).1
  exact ⟨j', hj', n', hwaits, hasks n hn⟩

/-- Nested requests do not all wait: the one that waits for the deepest lock would wait for one that
waits for a deeper one. -/
theorem canAdvance_of_nested (hnested : ∀ j ∈ jobs, j.Nested)
    (hopen : ∃ j ∈ jobs, j.Unfinished) : CanAdvance jobs := by
  by_contra hstuck
  let awaited : Set Node := {n | ∃ j ∈ jobs, j.WaitsFor jobs n}
  have hfinite : awaited.Finite := by
    refine (jobs.flatMap Job.held).finite_toSet.subset ?_
    rintro n ⟨j, -, h⟩
    exact h.2
  obtain ⟨j, hj, hj'⟩ := hopen
  obtain ⟨n, hn⟩ := exists_waitsFor hstuck hj hj'
  obtain ⟨deepest, ⟨j, -, h⟩, hmax⟩ :=
    Set.exists_max_image awaited Node.level hfinite ⟨n, j, hj, hn⟩
  obtain ⟨j', hj', n', h', hlt⟩ := h.deeper hnested hstuck
  exact Nat.not_lt_of_le (hmax n' ⟨j', hj', h'⟩) hlt

/-- **Requests never block one another for good.** Whenever requests for any tiles are under way,
however they take turns and whatever the oracle and the cache answer: each holds locks that it took at
ever deeper levels, it asks for no lock that it holds, and as long as one of them is unfinished, one
of them can go on. -/
theorem never_deadlocked (h : UnderWay s jobs) :
    (∀ j ∈ jobs, j.held.Pairwise fun later earlier => earlier.level < later.level) ∧
    (∀ j ∈ jobs, ∀ n next, j.rest = .ask (.lock n) next → n ∉ j.held) ∧
    ((∃ j ∈ jobs, j.Unfinished) → CanAdvance jobs) := by
  have hnested := h.nested
  refine ⟨fun j hj => (hnested j hj).descending, ?_, canAdvance_of_nested hnested⟩
  intro j hj n next hrest hn
  have hkeeps := (hnested j hj).keeps
  rw [hrest] at hkeeps
  exact Nat.lt_irrefl _ ((hkeeps j.held rfl).1 n hn)

/-- The first request holds the lock of the root and waits for that of a rank root below it, which the
second request holds; the third request waits for the first. -/
theorem never_deadlocked_three_requests : ∃ first second third : Job,
    UnderWay ⟨0, 1, 1, false⟩ [third, second, first] ∧ first.held = [⟨0, 0⟩] ∧
      second.held = [⟨1, 0⟩] ∧ third.held = [] ∧
      first.WaitsFor [third, second, first] ⟨1, 0⟩ ∧
      third.WaitsFor [third, second, first] ⟨0, 0⟩ ∧ CanAdvance [third, second, first] := by
  have h₀ := (UnderWay.start (s := ⟨0, 1, 1, false⟩)).request ⟨0, 0, 0⟩
  have h₁ := h₀.advance (.step [] [] () (by rintro n ⟨⟩; decide))
  have h₂ := h₁.advance (.step (a := .fetch ⟨0, 0⟩) [] [] (.ok none) nofun)
  have h₃ := h₂.advance (.step (a := .query ⟨0, 0⟩) [] [] (.ok true) nofun)
  have h₄ := h₃.request ⟨1, 0, 0⟩
  have h₅ := h₄.advance (.step [] _ () (by rintro n ⟨⟩; decide))
  have h₆ := h₅.request ⟨0, 0, 0⟩
  refine ⟨_, _, _, h₆, rfl, rfl, rfl, ⟨⟨_, rfl⟩, ?_⟩, ⟨⟨_, rfl⟩, ?_⟩, ?_⟩
  · decide
  · decide
  · exact (never_deadlocked h₆).2.2 ⟨_, .head _, nofun⟩

end ImplicitTiling.Store
