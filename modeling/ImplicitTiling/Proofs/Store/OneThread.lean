import ImplicitTiling.Proofs.Store.Exclusion
import Mathlib.Data.Set.Card

/-!
# Nested locks on one thread

One thread makes calls within calls, one after another, and some of them break off. As long as no call
takes a lock that is held already, the thread never waits for itself, and whoever tidies is alone with
its slot (`exists_orderly_moves`). In any run where that is so, the table lists exactly the rank roots
of callers that are not through, and those whose last caller that got through broke off
(`Orderly.exact`). So at every move of the thread it is known what the table lists
(`lists_running_or_left`).
-/

namespace ImplicitTiling

/-! ## The moves of calls -/

namespace LockedCall

mutual

/-- How many calls a call is, with those within it. -/
def size : LockedCall → Nat
  | .call _ inner _ => sizeAll inner + 1

/-- How many calls some calls are, with those within them. -/
def sizeAll : List LockedCall → Nat
  | [] => 0
  | first :: rest => size first + sizeAll rest

end

/-- How the caller at a position gets through after its inner calls. -/
def endMoves (i : Nat) (breaksOff : Bool) : List Move :=
  if breaksOff then [.turn i .breakOff, .turn i .drop]
  else [.turn i .unlock, .turn i .tidy, .turn i .drop]

mutual

/-- The moves of a call that is made where so many callers came before. -/
def moves (i : Nat) : LockedCall → List Move
  | .call n inner breaksOff =>
    [.enter n, .turn i .lock] ++ movesAll (i + 1) inner ++ endMoves i breaksOff

/-- The moves of calls that are made one after another. -/
def movesAll (i : Nat) : List LockedCall → List Move
  | [] => []
  | first :: rest => moves i first ++ movesAll (i + size first) rest

end

mutual

/-- No call takes a lock that is held already, by the thread or by a call around it. -/
def Apart (held : List Node) : LockedCall → Prop
  | .call n inner _ => n ∉ held ∧ ApartAll (n :: held) inner

/-- `Apart` of each of some calls. -/
def ApartAll (held : List Node) : List LockedCall → Prop
  | [] => True
  | first :: rest => Apart held first ∧ ApartAll held rest

end

variable (t : LockTable) (n : Node) (inner : List LockedCall)

/-- The table after a call, by what it is after the inner calls. -/
theorem table_run_call (breaksOff : Bool) : (run t (.call n inner breaksOff)).2 =
    if breaksOff then (runAll (t.enter n).2 inner).2.drop (t.enter n).1
    else ((runAll (t.enter n).2 inner).2.tidy n (t.enter n).1).drop (t.enter n).1 := by
  cases breaksOff <;> rfl

theorem table_runAll_cons (first : LockedCall) (rest : List LockedCall) :
    (runAll t (first :: rest)).2 = (runAll (run t first).2 rest).2 := rfl

end LockedCall

namespace Crowd

open LockedCall

variable {c c' d : Crowd} {i : Nat} {a : Turn} {k : Caller} {m : Move} {moves moves' : List Move}
  {n : Node} {ended : List (Node × Bool)} {held : List Node}

/-! ## What the table lists -/

/-- Someone has called for the rank root and is not through, that is, has yet to tidy or break off. -/
def Running (c : Crowd) (n : Node) : Prop :=
  ∃ k ∈ c.callers, k.node = n ∧ k.Untidied

/-- The caller that gets through with a move, and whether it breaks off. -/
def ending? (c : Crowd) : Move → Option (Node × Bool)
  | .turn i .tidy => c.callers[i]?.map fun k => (k.node, false)
  | .turn i .breakOff => c.callers[i]?.map fun k => (k.node, true)
  | _ => none

/-- The callers that get through in a run, the last one first. -/
def endings (c : Crowd) : List Move → List (Node × Bool)
  | [] => []
  | m :: moves => ((c.step? m).elim [] fun d => endings d moves) ++ (c.ending? m).toList

/-- The caller of a rank root that got through last broke off. -/
def LeftBehind (moves : List Move) (n : Node) : Prop :=
  (endings {} moves).lookup n = some true

/-- The table lists the rank roots of callers that are not through, and those of which the last one
that got through broke off. -/
def Exact (c : Crowd) (ended : List (Node × Bool)) : Prop :=
  ∀ n, n ∈ c.table.slots.map (·.1) ↔ c.Running n ∨ ended.lookup n = some true

/-- Some other caller than the one at a position runs for a rank root. -/
def RunsBeside (c : Crowd) (i : Nat) (n : Node) : Prop :=
  ∃ j k, c.callers[j]? = some k ∧ j ≠ i ∧ k.node = n ∧ k.Untidied

theorem running_set (hk : c.callers[i]? = some k) (table : LockTable) (phase : Phase) :
    Running ⟨table, c.callers.set i { k with phase }⟩ n ↔
      k.node = n ∧ ({ k with phase } : Caller).Untidied ∨ c.RunsBeside i n := by
  have hi := (List.getElem?_eq_some_iff.1 hk).1
  constructor
  · rintro ⟨k', hk', hnode, hu⟩
    obtain ⟨j, hj⟩ := List.mem_iff_getElem?.1 hk'
    by_cases hji : j = i
    · subst hji
      rw [List.getElem?_set_self hi] at hj
      cases hj
      exact .inl ⟨hnode, hu⟩
    · rw [List.getElem?_set_ne (Ne.symm hji)] at hj
      exact .inr ⟨j, k', hj, hji, hnode, hu⟩
  · rintro (⟨hnode, hu⟩ | ⟨j, k', hj, hji, hnode, hu⟩)
    · exact ⟨_, List.mem_set hi _, hnode, hu⟩
    · refine ⟨k', List.mem_of_getElem? (i := j) ?_, hnode, hu⟩
      rwa [List.getElem?_set_ne (Ne.symm hji)]

theorem running_iff (hk : c.callers[i]? = some k) :
    c.Running n ↔ k.node = n ∧ k.Untidied ∨ c.RunsBeside i n := by
  have hset := running_set (n := n) hk c.table k.phase
  obtain ⟨hi, rfl⟩ := List.getElem?_eq_some_iff.1 hk
  rwa [List.set_getElem_self] at hset

theorem running_enter (table : LockTable) (slot : Nat) :
    Running ⟨table, c.callers ++ [⟨n, slot, .waiting⟩]⟩ = fun n' => c.Running n' ∨ n' = n := by
  funext n'
  simp [Running, Caller.Untidied, or_and_right, exists_or, eq_comm]

theorem mem_nodes_enter (t : LockTable) (n n' : Node) :
    n' ∈ (t.enter n).2.slots.map (·.1) ↔ n' ∈ t.slots.map (·.1) ∨ n' = n := by
  rcases t.enter_cases n with ⟨slot, hslot, heq⟩ | ⟨-, heq⟩
  · rw [heq, or_iff_left_of_imp]
    rintro rfl
    exact List.mem_map.2 ⟨_, hslot, rfl⟩
  · rw [heq]
    exact List.mem_cons.trans or_comm

/-- Whoever tidies alone takes its rank root out of the table. -/
theorem Sound.mem_nodes_tidy (h : c.Sound) (hk : c.callers[i]? = some k) (hu : k.Untidied)
    (halone : c.Alone i k.slot) : n ∈ (c.table.tidy k.node k.slot).slots.map (·.1) ↔
      n ∈ c.table.slots.map (·.1) ∧ n ≠ k.node := by
  have hlisted := h.listed k (List.mem_of_getElem? hk) hu
  simp only [List.mem_map, h.mem_slots_tidy hk hu, halone, and_true]
  constructor
  · rintro ⟨e, ⟨he, hslot⟩, rfl⟩
    exact ⟨⟨e, he, rfl⟩, fun hnode => hslot (h.distinct.slot_eq (hnode ▸ he) hlisted)⟩
  · rintro ⟨⟨e, he, rfl⟩, hnode⟩
    exact ⟨e, ⟨he, fun hslot => hnode (h.distinct.node_eq (hslot ▸ he) hlisted)⟩, rfl⟩

theorem Sound.not_runsBeside (h : c.Sound) (hk : c.callers[i]? = some k) (hu : k.Untidied)
    (halone : c.Alone i k.slot) : ¬ c.RunsBeside i k.node := by
  rintro ⟨j, k', hj, hji, hnode, hu'⟩
  have hslot := (h.slot_eq_iff (List.mem_of_getElem? hk) (List.mem_of_getElem? hj) hu hu').2 hnode
  exact halone j k' hj hji (hslot ▸ hu'.holds)

theorem lookup_cons_eq_true_iff (b : Bool) : ((k.node, b) :: ended).lookup n = some true ↔
    n = k.node ∧ b = true ∨ n ≠ k.node ∧ ended.lookup n = some true := by
  rw [List.lookup_cons]
  by_cases hn : n = k.node
  · simp [hn]
  · simp [hn, beq_eq_false_iff_ne.2 hn]

theorem Exact.step? (hexact : c.Exact ended) (h : c.Sound) (hm : c.step? m = some d)
    (halone : ∀ i k, m = .turn i .tidy → c.callers[i]? = some k → c.Alone i k.slot) :
    d.Exact ((c.ending? m).toList ++ ended) := by
  intro n
  cases m with
  | enter n' =>
    obtain rfl := step?_enter.1 hm
    rw [mem_nodes_enter, running_enter, hexact]
    exact or_right_comm
  | turn i a =>
    obtain ⟨k, hk, hphase, -, rfl⟩ := step?_turn.1 hm
    have hlists := hexact n
    rw [running_iff hk] at hlists
    rw [running_set hk]
    -- A turn that neither ends a caller nor touches the table.
    have hsame (hslots : (a.table c.table k).slots = c.table.slots)
        (hu : ({ k with phase := a.after } : Caller).Untidied ↔ k.Untidied) :
        n ∈ (a.table c.table k).slots.map (·.1) ↔
          (k.node = n ∧ ({ k with phase := a.after } : Caller).Untidied ∨ c.RunsBeside i n) ∨
            ended.lookup n = some true := by
      rw [hslots, hu, hlists]
    cases a with
    | lock => exact hsame rfl (by simp [Caller.Untidied, Turn.after, hphase, Turn.before])
    | unlock => exact hsame rfl (by simp [Caller.Untidied, Turn.after, hphase, Turn.before])
    | drop => exact hsame rfl (by simp [Caller.Untidied, Turn.after, hphase, Turn.before])
    | breakOff =>
      have hu : k.Untidied := .inr (.inl hphase)
      have hu' : ¬ ({ k with phase := Turn.breakOff.after } : Caller).Untidied :=
        fun h => (Caller.untidied_iff.1 h).1 rfl
      show n ∈ c.table.slots.map (·.1) ↔ _
      simp only [ending?, hk, Option.map_some, Option.toList_some, List.singleton_append,
        lookup_cons_eq_true_iff, hlists, hu, hu', and_true, and_false, false_or]
      by_cases hn : n = k.node
      · simp [hn]
      · simp [hn, Ne.symm hn]
    | tidy =>
      have hu : k.Untidied := .inr (.inr hphase)
      have hu' : ¬ ({ k with phase := Turn.tidy.after } : Caller).Untidied :=
        fun h => (Caller.untidied_iff.1 h).1 rfl
      have hbeside := h.not_runsBeside hk hu (halone i k rfl hk)
      show n ∈ (c.table.tidy k.node k.slot).slots.map (·.1) ↔ _
      rw [h.mem_nodes_tidy hk hu (halone i k rfl hk)]
      simp only [ending?, hk, Option.map_some, Option.toList_some, List.singleton_append,
        lookup_cons_eq_true_iff, hlists, hu, hu', and_true, and_false, false_or]
      by_cases hn : n = k.node
      · simp [hn, hbeside]
      · simp [hn, Ne.symm hn]

/-! ## Runs in which whoever tidies is alone -/

/-- A run in which whoever tidies is alone with its slot. -/
inductive Orderly : Crowd → List Move → Crowd → Prop
  | nil (c : Crowd) : Orderly c [] c
  | cons {c d c' : Crowd} {m : Move} {moves : List Move} (hm : c.step? m = some d)
      (halone : ∀ i k, m = .turn i .tidy → c.callers[i]? = some k → c.Alone i k.slot)
      (hrest : Orderly d moves c') : Orderly c (m :: moves) c'

theorem Orderly.append (h : Orderly c moves d) (h' : Orderly d moves' c') :
    Orderly c (moves ++ moves') c' := by
  induction h with
  | nil => exact h'
  | cons hm halone _ ih => exact .cons hm halone (ih h')

theorem Orderly.exists_of_append (h : Orderly c (moves ++ moves') c') :
    ∃ d, Orderly c moves d ∧ Orderly d moves' c' := by
  induction moves generalizing c with
  | nil => exact ⟨c, .nil c, h⟩
  | cons m moves ih =>
    cases h with
    | cons hm halone hrest =>
      obtain ⟨d, hd, hd'⟩ := ih hrest
      exact ⟨d, .cons hm halone hd, hd'⟩

theorem Orderly.run? (h : Orderly c moves c') : c.run? moves = some c' := by
  induction h with
  | nil => rfl
  | cons hm _ _ ih => exact Option.bind_eq_some_iff.2 ⟨_, hm, ih⟩

theorem Orderly.sound (h : Orderly c moves c') (hsound : c.Sound) : c'.Sound := by
  induction h with
  | nil => exact hsound
  | cons hm _ _ ih => exact ih (hsound.step? hm)

theorem Orderly.exact (h : Orderly c moves c') (hsound : c.Sound) (hexact : c.Exact ended) :
    c'.Exact (c.endings moves ++ ended) := by
  induction h generalizing ended with
  | nil => exact hexact
  | cons hm halone _ ih =>
    rw [endings, hm, List.append_assoc]
    exact ih (hsound.step? hm) (hexact.step? hsound hm halone)

/-- The table lists as many rank roots as there are running or left behind. -/
theorem Sound.inFlight_eq (h : c.Sound) (hexact : c.Exact ended) :
    c.table.inFlight = {n | c.Running n ∨ ended.lookup n = some true}.ncard := by
  have hset : {n | c.Running n ∨ ended.lookup n = some true} =
      ((c.table.slots.map (·.1)).toFinset : Set Node) := by
    ext n
    simp only [List.coe_toFinset, Set.mem_ofPred_eq, hexact n]
  rw [hset, Set.ncard_coe_finset, List.toFinset_card_of_nodup h.distinct.nodes, List.length_map]
  rfl

/-! ## One thread -/

/-- All callers have returned, or are inside and hold one of some locks. -/
def Calm (callers : List Caller) (held : List Node) : Prop :=
  ∀ k ∈ callers, k.phase = .gone ∨ k.phase = .inside ∧ k.node ∈ held

variable {front back done : List Caller} {t : LockTable} {slot : Nat}

theorem Calm.append (h : Calm front held) (hgone : ∀ k ∈ done, k.phase = .gone) :
    Calm (front ++ done) held :=
  List.forall_mem_append.2 ⟨h, fun k hk => .inl (hgone k hk)⟩

theorem Calm.concat (h : Calm front held) (n : Node) (slot : Nat) :
    Calm (front ++ [⟨n, slot, .inside⟩]) (n :: held) := by
  refine List.forall_mem_append.2 ⟨fun k hk => ?_, ?_⟩
  · exact (h k hk).imp_right fun h => ⟨h.1, List.mem_cons_of_mem _ h.2⟩
  · exact List.forall_mem_singleton.2 (.inr ⟨rfl, List.mem_cons_self⟩)

theorem Calm.not_running (h : Calm c.callers held) (hn : n ∉ held) : ¬ c.Running n := by
  rintro ⟨k, hk, rfl, hu⟩
  rcases h k hk with hgone | ⟨-, hheld⟩
  · exact (Caller.untidied_iff.1 hu).2 hgone
  · exact hn hheld

/-- Whoever else refers to a slot is inside, for another rank root. -/
theorem Calm.alone (hcalm : Calm (front ++ back) held)
    (h : Sound ⟨t, front ++ ⟨n, slot, .leaving⟩ :: back⟩) (hn : n ∉ held) :
    Alone ⟨t, front ++ ⟨n, slot, .leaving⟩ :: back⟩ front.length slot := by
  intro j k hj hjfront hholds
  have hk : k ∈ front ++ back := by
    rcases Nat.lt_or_gt_of_ne hjfront with hlt | hgt
    · rw [List.getElem?_append_left hlt] at hj
      exact List.mem_append_left _ (List.mem_of_getElem? hj)
    · rw [List.getElem?_append_right hgt.le, List.getElem?_cons, if_neg (by omega)] at hj
      exact List.mem_append_right _ (List.mem_of_getElem? hj)
  rcases hcalm k hk with hgone | ⟨hinside, hheld⟩
  · exact hholds.2 hgone
  · have hnode : k.node = n := (h.slot_eq_iff (List.mem_append_right _ List.mem_cons_self)
      (List.mem_of_getElem? hj) (.inr (.inr rfl)) (.inr (.inl hinside))).1 hholds.1
    exact hn (hnode ▸ hheld)

/-- The lock of a rank root for which nobody runs can be taken, also if a caller broke off with it. -/
theorem step?_lock (h : c.Sound) (hn : ¬ c.Running n) :
    step? ⟨(c.table.enter n).2, c.callers ++ [⟨n, (c.table.enter n).1, .waiting⟩]⟩
      (.turn c.callers.length .lock) =
        some ⟨(c.table.enter n).2, c.callers ++ [⟨n, (c.table.enter n).1, .inside⟩]⟩ := by
  have hfree := ((h.enter n).free_iff (List.mem_append_right _ (List.mem_singleton.2 rfl)) rfl).2
  refine step?_turn.2 ⟨⟨n, (c.table.enter n).1, .waiting⟩, by simp, rfl, fun _ => hfree ?_,
    by simp [Turn.table, Turn.after]⟩
  intro k hk hnode hinside
  rcases List.mem_append.1 hk with hk | hk
  · exact hn ⟨k, hk, hnode, .inr (.inl hinside)⟩
  · obtain rfl := List.mem_singleton.1 hk
    cases hinside

theorem orderly_open (h : c.Sound) (hcalm : Calm c.callers held) (hn : n ∉ held) :
    Orderly c [.enter n, .turn c.callers.length .lock]
      ⟨(c.table.enter n).2, c.callers ++ [⟨n, (c.table.enter n).1, .inside⟩]⟩ :=
  .cons (step?_enter.2 rfl) nofun (.cons (step?_lock h (hcalm.not_running hn)) nofun (.nil _))

theorem orderly_endMoves (h : Sound ⟨t, front ++ ⟨n, slot, .inside⟩ :: back⟩)
    (hcalm : Calm (front ++ back) held) (hn : n ∉ held) (breaksOff : Bool) :
    Orderly ⟨t, front ++ ⟨n, slot, .inside⟩ :: back⟩ (endMoves front.length breaksOff)
      ⟨if breaksOff then t.drop slot else (t.tidy n slot).drop slot,
        front ++ ⟨n, slot, .gone⟩ :: back⟩ := by
  have hstep (t : LockTable) (a : Turn) (ha : a ≠ .lock) :
      step? ⟨t, front ++ ⟨n, slot, a.before⟩ :: back⟩ (.turn front.length a) =
        some ⟨a.table t ⟨n, slot, a.before⟩, front ++ ⟨n, slot, a.after⟩ :: back⟩ := by
    refine step?_turn.2 ⟨⟨n, slot, a.before⟩, by simp, rfl, fun h => absurd h ha, ?_⟩
    simp
  cases breaksOff with
  | true =>
    exact .cons (hstep t .breakOff nofun) nofun (.cons (hstep t .drop nofun) nofun (.nil _))
  | false =>
    have hunlock := hstep t .unlock nofun
    refine .cons hunlock nofun (.cons (hstep t .tidy nofun) ?_
      (.cons (hstep _ .drop nofun) nofun (.nil _)))
    rintro i k ⟨⟩ hk
    obtain rfl : k = ⟨n, slot, .leaving⟩ := by simpa [Turn.after, eq_comm] using hk
    exact hcalm.alone (h.step? hunlock) hn

mutual

/-- A call goes through at once, and leaves the table as it is run. -/
theorem exists_orderly_moves : ∀ (call : LockedCall) {c : Crowd} {held : List Node}, c.Sound →
    Calm c.callers held → Apart held call → ∃ done : List Caller, done.length = size call ∧
      (∀ k ∈ done, k.phase = .gone) ∧
      Orderly c (LockedCall.moves c.callers.length call)
        ⟨(run c.table call).2, c.callers ++ done⟩
  | .call n inner breaksOff, c, held, h, hcalm, hapart => by
    have hopen := orderly_open h hcalm hapart.1
    obtain ⟨done, hlength, hgone, hinner⟩ :=
      exists_orderly_movesAll inner (hopen.sound h) (hcalm.concat n _) hapart.2
    simp only [List.length_append, List.length_singleton, List.append_assoc,
      List.singleton_append] at hinner
    have hsound := hinner.sound (hopen.sound h)
    have hend := orderly_endMoves hsound (hcalm.append hgone) hapart.1 breaksOff
    refine ⟨⟨n, (c.table.enter n).1, .gone⟩ :: done, by simp [size, hlength], ?_, ?_⟩
    · simpa using hgone
    · rw [table_run_call]
      exact (hopen.append hinner).append hend

theorem exists_orderly_movesAll : ∀ (calls : List LockedCall) {c : Crowd} {held : List Node},
    c.Sound → Calm c.callers held → ApartAll held calls → ∃ done : List Caller,
      done.length = sizeAll calls ∧ (∀ k ∈ done, k.phase = .gone) ∧
      Orderly c (movesAll c.callers.length calls)
        ⟨(runAll c.table calls).2, c.callers ++ done⟩
  | [], c, _, _, _, _ => ⟨[], rfl, nofun, by simpa [movesAll, runAll] using Orderly.nil c⟩
  | first :: rest, c, held, h, hcalm, hapart => by
    obtain ⟨done, hlength, hgone, hfirst⟩ := exists_orderly_moves first h hcalm hapart.1
    obtain ⟨done', hlength', hgone', hrest⟩ :=
      exists_orderly_movesAll rest (hfirst.sound h) (hcalm.append hgone) hapart.2
    refine ⟨done ++ done', by simp [sizeAll, hlength, hlength'], ?_, ?_⟩
    · exact List.forall_mem_append.2 ⟨hgone, hgone'⟩
    · rw [List.length_append, hlength, List.append_assoc] at hrest
      rw [table_runAll_cons]
      exact hfirst.append hrest

end

/-- **What one thread leaves in the table.** Let calls be made one after another on one thread, with
further calls within them, of which none takes a lock that is held already. They can be made to the
end, and return what was computed under the lock. At any moment the table lists exactly the rank
roots of calls that are not through, and those of which the last call that got through broke off.
What was left behind can be locked again, and a call that does not break off takes its rank root out
of the table. -/
theorem lists_running_or_left (calls : List LockedCall) (hapart : ApartAll [] calls) :
    (∀ moves, moves <+: movesAll 0 calls → ∃ c, run? {} moves = some c ∧
      (∀ n, n ∈ c.table.slots.map (·.1) ↔ c.Running n ∨ LeftBehind moves n) ∧
      c.table.inFlight = {n | c.Running n ∨ LeftBehind moves n}.ncard ∧
      (∀ n, ¬ c.Running n → (c.run? [.enter n, .turn c.callers.length .lock]).isSome) ∧
      ∀ i k, moves ++ [.turn i .tidy] <+: movesAll 0 calls → c.callers[i]? = some k →
        ∃ d, c.step? (.turn i .tidy) = some d ∧ k.node ∉ d.table.slots.map (·.1)) ∧
    (∃ c, run? {} (movesAll 0 calls) = some c ∧ c.table = (runAll {} calls).2) ∧
    ∀ {ε α : Type} (t : LockTable) (n : Node) (body : LockTable → Except ε α × LockTable),
      (t.withLock n body).1 = (body (t.enter n).2).1 := by
  obtain ⟨done, -, -, hall⟩ := exists_orderly_movesAll calls sound_empty nofun hapart
  have hexact : Exact {} [] := fun n => by simp [Running]
  refine ⟨?_, ⟨_, hall.run?, rfl⟩, ?_⟩
  · rintro moves ⟨rest, hmoves⟩
    obtain ⟨c, hc, hrest⟩ := Orderly.exists_of_append (hmoves ▸ hall)
    have hsound := hc.sound sound_empty
    have hlists : c.Exact (endings {} moves) := by
      simpa using hc.exact sound_empty hexact
    refine ⟨c, hc.run?, hlists, hsound.inFlight_eq hlists, ?_, ?_⟩
    · intro n hn
      have hlock : c.run? ([.enter n] ++ [.turn c.callers.length .lock]) = some _ :=
        (run?_concat _ _).2 ⟨_, rfl, step?_lock hsound hn⟩
      exact Option.isSome_iff_exists.2 ⟨_, hlock⟩
    · rintro i k ⟨rest', htidy⟩ hk
      obtain rfl : rest = .turn i .tidy :: rest' := by
        rw [← hmoves, List.append_assoc] at htidy
        exact (List.append_cancel_left htidy).symm
      cases hrest with
      | cons hm halone _ =>
        refine ⟨_, hm, fun hmem => ?_⟩
        obtain ⟨k', hk', hphase, -, rfl⟩ := step?_turn.1 hm
        cases hk.symm.trans hk'
        have hstill := (hsound.mem_nodes_tidy hk (.inr (.inr hphase)) (halone i k rfl hk)).1 hmem
        exact hstill.2 rfl
  · intro ε α t n body
    rcases hbody : body (t.enter n).2 with ⟨_ | _, _⟩ <;> simp [LockTable.withLock, hbody]

/-- A call within another one breaks off, and its rank root stays in the table until it is locked
again and the later call tidies. -/
theorem lists_running_or_left_nested : ∃ calls moves later c c', ApartAll [] calls ∧
    moves <+: movesAll 0 calls ∧ later ++ [.turn 3 .tidy] <+: movesAll 0 calls ∧
    run? {} moves = some c ∧ LeftBehind moves ⟨1, 0⟩ ∧ c.table.inFlight = 3 ∧
    ⟨1, 0⟩ ∈ c.table.slots.map (·.1) ∧
    (c.run? [.enter ⟨1, 0⟩, .turn c.callers.length .lock]).isSome ∧
    run? {} later = some c' ∧ ∃ d, c'.step? (.turn 3 .tidy) = some d ∧
      ⟨1, 0⟩ ∉ d.table.slots.map (·.1) := by
  -- Inside two calls, after a third one that broke off.
  let moves : List Move := [.enter ⟨0, 0⟩, .turn 0 .lock, .enter ⟨1, 0⟩, .turn 1 .lock,
    .turn 1 .breakOff, .turn 1 .drop, .enter ⟨1, 1⟩, .turn 2 .lock]
  let later : List Move := moves ++ [.turn 2 .unlock, .turn 2 .tidy, .turn 2 .drop,
    .turn 0 .unlock, .turn 0 .tidy, .turn 0 .drop, .enter ⟨1, 0⟩, .turn 3 .lock, .turn 3 .unlock]
  let calls : List LockedCall := [.call ⟨0, 0⟩ [.call ⟨1, 0⟩ [] true, .call ⟨1, 1⟩ [] false] false,
    .call ⟨1, 0⟩ [] false]
  have hapart : ApartAll [] calls := by simp [calls, ApartAll, Apart]
  have hmoves : moves <+: movesAll 0 calls := by decide
  have hlater : later ++ [.turn 3 .tidy] <+: movesAll 0 calls := by decide
  have hleft : LeftBehind moves ⟨1, 0⟩ := by
    show (endings {} moves).lookup ⟨1, 0⟩ = some true
    decide
  obtain ⟨hmoments, -⟩ := lists_running_or_left calls hapart
  obtain ⟨c, hrun, hlists, -, hlock, -⟩ := hmoments moves hmoves
  obtain ⟨c', hrun', -, -, -, htidy⟩ := hmoments later ((List.prefix_append _ _).trans hlater)
  have hcrowd : run? {} moves = some ⟨⟨[(⟨1, 1⟩, 2), (⟨1, 0⟩, 1), (⟨0, 0⟩, 0)], [2, 0], 3⟩,
      [⟨⟨0, 0⟩, 0, .inside⟩, ⟨⟨1, 0⟩, 1, .gone⟩, ⟨⟨1, 1⟩, 2, .inside⟩]⟩ := by decide
  cases hrun.symm.trans hcrowd
  have hcrowd' : run? {} later = some ⟨⟨[(⟨1, 0⟩, 1)], [1], 3⟩, [⟨⟨0, 0⟩, 0, .gone⟩,
      ⟨⟨1, 0⟩, 1, .gone⟩, ⟨⟨1, 1⟩, 2, .gone⟩, ⟨⟨1, 0⟩, 1, .leaving⟩]⟩ := by decide
  cases hrun'.symm.trans hcrowd'
  have hfree : ¬ Running ⟨⟨[(⟨1, 1⟩, 2), (⟨1, 0⟩, 1), (⟨0, 0⟩, 0)], [2, 0], 3⟩,
      [⟨⟨0, 0⟩, 0, .inside⟩, ⟨⟨1, 0⟩, 1, .gone⟩, ⟨⟨1, 1⟩, 2, .inside⟩]⟩ ⟨1, 0⟩ := by
    simp [Running, Caller.Untidied]
  exact ⟨calls, moves, later, _, _, hapart, hmoves, hlater, hrun, hleft, rfl,
    (hlists ⟨1, 0⟩).2 (.inr hleft), hlock ⟨1, 0⟩ hfree, hrun', htidy 3 _ hlater rfl⟩

end Crowd

end ImplicitTiling
