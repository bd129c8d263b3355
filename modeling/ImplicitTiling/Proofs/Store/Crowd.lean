import ImplicitTiling.Store.LockTable
import Mathlib.Data.List.Induction
import Mathlib.Data.List.Nodup

/-!
# Callers of locks, all at once

A caller looks up or makes the slot of its rank root, locks the slot, runs, unlocks, tidies the table
and gives its reference up. A `Crowd` is any number of callers between these moves, and a run is any
sequence of moves that the callers can make; a caller may also break off while it runs, and then gives
its reference up without tidying.

`Crowd.Sound` holds after every run (`sound_of_run?`): the table and the callers agree on who refers
to which slot, and a slot is listed for as long as one of its callers has yet to tidy. So what a
caller sees when it tidies tells whether it is alone with its slot (`references_eq_two_iff`).
-/

namespace ImplicitTiling

/-! ## Moves -/

/-- Where a caller stands. -/
inductive Phase where
  /-- It refers to its slot and has not locked it. -/
  | waiting
  /-- It has locked its slot and runs. -/
  | inside
  /-- It has unlocked its slot. -/
  | leaving
  /-- It will not look at the table again, and still refers to its slot. -/
  | parting
  /-- It has returned. -/
  | gone
  deriving DecidableEq

/-- A caller, with the slot that it found or made. -/
structure Caller where
  node : Node
  slot : Nat
  phase : Phase
  deriving DecidableEq

/-- The table of locks and everyone who ever called, in the order of their calls. -/
structure Crowd where
  table : LockTable := {}
  callers : List Caller := []
  deriving DecidableEq

/-- What a caller does after it has got its slot. -/
inductive Turn where
  | lock
  | unlock
  | breakOff
  | tidy
  | drop
  deriving DecidableEq

namespace Turn

/-- Where a caller stands before its turn. -/
def before : Turn → Phase
  | lock => .waiting
  | unlock => .inside
  | breakOff => .inside
  | tidy => .leaving
  | drop => .parting

/-- Where a caller stands after its turn. -/
def after : Turn → Phase
  | lock => .inside
  | unlock => .leaving
  | breakOff => .parting
  | tidy => .parting
  | drop => .gone

/-- What the turn of a caller does to the table. -/
def table (a : Turn) (t : LockTable) (k : Caller) : LockTable :=
  match a with
  | tidy => t.tidy k.node k.slot
  | drop => t.drop k.slot
  | _ => t

end Turn

/-- What may happen next: someone calls, or the caller at a position takes a turn. -/
inductive Move where
  | enter (n : Node)
  | turn (i : Nat) (a : Turn)
  deriving DecidableEq

namespace Crowd

/-- Nobody has locked the slot. -/
def Free (c : Crowd) (slot : Nat) : Prop :=
  ∀ k ∈ c.callers, k.slot = slot → k.phase ≠ .inside

instance (c : Crowd) (slot : Nat) : Decidable (c.Free slot) :=
  inferInstanceAs (Decidable (∀ k ∈ c.callers, k.slot = slot → k.phase ≠ .inside))

/-- The crowd after a move; `none` if nobody can make it. Only a free slot can be locked. -/
def step? (c : Crowd) : Move → Option Crowd
  | .enter n =>
    let (slot, table) := c.table.enter n
    some ⟨table, c.callers ++ [⟨n, slot, .waiting⟩]⟩
  | .turn i a =>
    match c.callers[i]? with
    | some k =>
      if k.phase = a.before ∧ (a = .lock → c.Free k.slot) then
        some ⟨a.table c.table k, c.callers.set i { k with phase := a.after }⟩
      else none
    | none => none

/-- The crowd after a run. -/
def run? (c : Crowd) (moves : List Move) : Option Crowd :=
  moves.foldlM step? c

variable {c c' : Crowd} {i : Nat} {a : Turn} {k : Caller} {moves : List Move}

theorem step?_enter {n : Node} : c.step? (.enter n) = some c' ↔
    c' = ⟨(c.table.enter n).2, c.callers ++ [⟨n, (c.table.enter n).1, .waiting⟩]⟩ := by
  unfold step?
  exact Option.some_inj.trans eq_comm

theorem step?_turn : c.step? (.turn i a) = some c' ↔ ∃ k, c.callers[i]? = some k ∧
    k.phase = a.before ∧ (a = .lock → c.Free k.slot) ∧
    c' = ⟨a.table c.table k, c.callers.set i { k with phase := a.after }⟩ := by
  unfold step?
  dsimp only
  cases c.callers[i]? with
  | none =>
    constructor
    · nofun
    · rintro ⟨k, hk, -⟩
      cases hk
  | some k =>
    dsimp only
    constructor
    · intro h
      split at h
      · next hcan =>
        cases h
        exact ⟨k, rfl, hcan.1, hcan.2, rfl⟩
      · cases h
    · rintro ⟨k, hk, hphase, hfree, rfl⟩
      cases hk
      exact if_pos ⟨hphase, hfree⟩

theorem run?_concat (moves : List Move) (m : Move) :
    c.run? (moves ++ [m]) = some c' ↔ ∃ d, c.run? moves = some d ∧ d.step? m = some c' := by
  unfold run?
  rw [List.foldlM_append]
  simp [Option.bind_eq_some_iff]

end Crowd

/-! ## The table -/

namespace LockTable

/-- Rank roots and slots are listed at most once, and new slots are new. -/
structure Distinct (t : LockTable) : Prop where
  nodes : (t.slots.map (·.1)).Nodup
  slots : (t.slots.map (·.2)).Nodup
  lt_fresh : ∀ e ∈ t.slots, e.2 < t.fresh

variable {t : LockTable} {n : Node} {slot : Nat}

theorem Distinct.slot_eq (h : t.Distinct) {slot' : Nat} (hs : (n, slot) ∈ t.slots)
    (hs' : (n, slot') ∈ t.slots) : slot = slot' :=
  (Prod.mk.inj (List.inj_on_of_nodup_map h.nodes hs hs' rfl)).2

theorem Distinct.node_eq (h : t.Distinct) {n' : Node} (hn : (n, slot) ∈ t.slots)
    (hn' : (n', slot) ∈ t.slots) : n = n' :=
  (Prod.mk.inj (List.inj_on_of_nodup_map h.slots hn hn' rfl)).1

/-- The slot of a rank root is found or made. -/
theorem enter_cases (t : LockTable) (n : Node) :
    (∃ slot, (n, slot) ∈ t.slots ∧ t.enter n = (slot, { t with holders := slot :: t.holders })) ∨
    (∀ slot, (n, slot) ∉ t.slots) ∧
      t.enter n = (t.fresh, ⟨(n, t.fresh) :: t.slots, t.fresh :: t.holders, t.fresh + 1⟩) := by
  unfold enter
  cases hlookup : t.slots.lookup n with
  | some slot =>
    obtain ⟨front, back, heq, -⟩ := List.lookup_eq_some_iff.1 hlookup
    exact .inl ⟨slot, by simp [heq], rfl⟩
  | none =>
    refine .inr ⟨fun slot hslot => ?_, rfl⟩
    have hne := List.lookup_eq_none_iff.1 hlookup (n, slot) hslot
    simp at hne

theorem Distinct.enter (h : t.Distinct) (n : Node) : (t.enter n).2.Distinct := by
  rcases t.enter_cases n with ⟨slot, -, heq⟩ | ⟨hnone, heq⟩
  · rw [heq]
    exact ⟨h.nodes, h.slots, h.lt_fresh⟩
  · rw [heq]
    refine ⟨List.nodup_cons.2 ⟨?_, h.nodes⟩, List.nodup_cons.2 ⟨?_, h.slots⟩, ?_⟩
    · intro hn
      obtain ⟨⟨n', slot⟩, he, rfl⟩ := List.mem_map.1 hn
      exact hnone slot he
    · intro hslot
      obtain ⟨e, he, heq⟩ := List.mem_map.1 hslot
      exact Nat.ne_of_lt (h.lt_fresh e he) heq
    · intro e he
      rcases List.mem_cons.1 he with rfl | he
      · exact Nat.lt_succ_self _
      · exact Nat.lt_succ_of_lt (h.lt_fresh e he)

theorem Distinct.tidy (h : t.Distinct) (n : Node) (slot : Nat) : (t.tidy n slot).Distinct := by
  unfold LockTable.tidy
  split
  · exact ⟨h.nodes.sublist (List.filter_sublist.map _), h.slots.sublist (List.filter_sublist.map _),
      fun e he => h.lt_fresh e (List.mem_filter.1 he).1⟩
  · exact h

theorem Distinct.turn (h : t.Distinct) (a : Turn) (k : Caller) : (a.table t k).Distinct := by
  cases a with
  | tidy => exact h.tidy k.node k.slot
  | drop => exact ⟨h.nodes, h.slots, h.lt_fresh⟩
  | _ => exact h

/-- A listed slot is referred to once by the table. -/
theorem Distinct.references_eq (h : t.Distinct) (hs : (n, slot) ∈ t.slots) :
    t.references slot = t.holders.count slot + 1 := by
  have hmem : slot ∈ t.slots.map (·.2) := List.mem_map.2 ⟨_, hs, rfl⟩
  have hone : t.slots.countP (·.2 == slot) = 1 := by
    rw [← List.count_eq_one_of_mem h.slots hmem, List.count, List.countP_map]
    rfl
  rw [references, hone, Nat.add_comm]

theorem fresh_turn (a : Turn) (t : LockTable) (k : Caller) : (a.table t k).fresh = t.fresh := by
  cases a with
  | tidy =>
    unfold Turn.table tidy
    dsimp only
    split <;> rfl
  | _ => rfl

end LockTable

/-! ## What holds after every run -/

/-- The caller refers to the slot. -/
def Caller.Holds (slot : Nat) (k : Caller) : Prop :=
  k.slot = slot ∧ k.phase ≠ .gone

instance (slot : Nat) (k : Caller) : Decidable (k.Holds slot) :=
  inferInstanceAs (Decidable (k.slot = slot ∧ k.phase ≠ .gone))

/-- How many callers refer to the slot. -/
def holding (callers : List Caller) (slot : Nat) : Nat :=
  callers.countP fun k => k.Holds slot

/-- The caller has yet to tidy. -/
def Caller.Untidied (k : Caller) : Prop :=
  k.phase = .waiting ∨ k.phase = .inside ∨ k.phase = .leaving

theorem Caller.untidied_iff {k : Caller} :
    k.Untidied ↔ k.phase ≠ .parting ∧ k.phase ≠ .gone := by
  unfold Untidied
  cases k.phase <;> simp

theorem Caller.Untidied.holds {k : Caller} (h : k.Untidied) : k.Holds k.slot :=
  ⟨rfl, (Caller.untidied_iff.1 h).2⟩

namespace Crowd

/-- The table and the callers agree. -/
structure Sound (c : Crowd) : Prop where
  distinct : c.table.Distinct
  count_holders : ∀ slot, c.table.holders.count slot = holding c.callers slot
  slot_lt : ∀ k ∈ c.callers, k.slot < c.table.fresh
  listed : ∀ k ∈ c.callers, k.Untidied → (k.node, k.slot) ∈ c.table.slots

/-- No caller but the one at position `i` refers to the slot. -/
def Alone (c : Crowd) (i slot : Nat) : Prop :=
  ∀ j k, c.callers[j]? = some k → j ≠ i → ¬ k.Holds slot

variable {c c' : Crowd} {i : Nat} {a : Turn} {k : Caller} {moves : List Move}

/-- How many callers refer to a slot where one of them is replaced. -/
theorem holding_set (hk : c.callers[i]? = some k) (k' : Caller) (slot : Nat) :
    holding (c.callers.set i k') slot + (if k.Holds slot then 1 else 0) =
      holding c.callers slot + if k'.Holds slot then 1 else 0 := by
  obtain ⟨hi, rfl⟩ := List.getElem?_eq_some_iff.1 hk
  have hpos (h : c.callers[i].Holds slot) : 0 < holding c.callers slot :=
    List.countP_pos_iff.2 ⟨_, List.getElem_mem hi, decide_eq_true h⟩
  unfold holding at hpos ⊢
  rw [List.countP_set hi]
  simp only [decide_eq_true_eq]
  split
  · next h =>
    have := hpos h
    omega
  · omega

/-- Nobody else refers to the slot if nobody does once the caller is gone. -/
theorem holding_set_gone_eq_zero_iff (hk : c.callers[i]? = some k) (slot : Nat) :
    holding (c.callers.set i { k with phase := .gone }) slot = 0 ↔ c.Alone i slot := by
  unfold holding
  rw [List.countP_eq_zero]
  constructor
  · intro hnone j k' hk' hj
    have hmem : k' ∈ c.callers.set i { k with phase := .gone } := by
      apply List.mem_of_getElem? (i := j)
      rwa [List.getElem?_set_ne (Ne.symm hj)]
    exact fun h => hnone k' hmem (decide_eq_true h)
  · intro halone k' hk' h
    obtain ⟨j, hj⟩ := List.mem_iff_getElem?.1 hk'
    by_cases hji : j = i
    · subst hji
      rw [List.getElem?_set_self (List.getElem?_eq_some_iff.1 hk).1] at hj
      cases hj
      exact (of_decide_eq_true h).2 rfl
    · rw [List.getElem?_set_ne (Ne.symm hji)] at hj
      exact halone j k' hj hji (of_decide_eq_true h)

/-- A caller that has yet to tidy is alone with its slot if the table is all that refers to it as
well. -/
theorem Sound.references_eq_two_iff (h : c.Sound) (hk : c.callers[i]? = some k)
    (hu : k.Untidied) : c.table.references k.slot = 2 ↔ c.Alone i k.slot := by
  have hlisted := h.listed k (List.mem_of_getElem? hk) hu
  have hgone : ¬ ({ k with phase := .gone } : Caller).Holds k.slot := fun h => h.2 rfl
  have hcount := holding_set hk { k with phase := .gone } k.slot
  rw [if_pos hu.holds, if_neg hgone] at hcount
  rw [← holding_set_gone_eq_zero_iff hk, h.distinct.references_eq hlisted, h.count_holders]
  omega

/-! ### One move -/

theorem sound_empty : ({} : Crowd).Sound where
  distinct := ⟨List.nodup_nil, List.nodup_nil, nofun⟩
  count_holders _ := rfl
  slot_lt := nofun
  listed := nofun

theorem Sound.enter (h : c.Sound) (n : Node) :
    Sound ⟨(c.table.enter n).2, c.callers ++ [⟨n, (c.table.enter n).1, .waiting⟩]⟩ := by
  have hcount (slot slot' : Nat) : (slot' :: c.table.holders).count slot =
      holding (c.callers ++ [⟨n, slot', .waiting⟩]) slot := by
    rw [List.count_cons, h.count_holders, holding, holding, List.countP_append,
      List.countP_singleton]
    simp [Caller.Holds]
  refine ⟨h.distinct.enter n, ?_, ?_, ?_⟩
  all_goals
    rcases c.table.enter_cases n with ⟨slot, hslot, heq⟩ | ⟨-, heq⟩
    all_goals rw [heq]
  · exact fun slot' => hcount slot' slot
  · exact fun slot' => hcount slot' c.table.fresh
  · intro k hk
    rcases List.mem_append.1 hk with hk | hk
    · exact h.slot_lt k hk
    · obtain rfl := List.mem_singleton.1 hk
      exact h.distinct.lt_fresh _ hslot
  · intro k hk
    rcases List.mem_append.1 hk with hk | hk
    · exact Nat.lt_succ_of_lt (h.slot_lt k hk)
    · obtain rfl := List.mem_singleton.1 hk
      exact Nat.lt_succ_self _
  · intro k hk hu
    rcases List.mem_append.1 hk with hk | hk
    · exact h.listed k hk hu
    · obtain rfl := List.mem_singleton.1 hk
      exact hslot
  · intro k hk hu
    rcases List.mem_append.1 hk with hk | hk
    · exact List.mem_cons_of_mem _ (h.listed k hk hu)
    · obtain rfl := List.mem_singleton.1 hk
      exact List.mem_cons_self

/-- A slot is taken out of the table by a caller that is alone with it, and by nobody else. -/
theorem Sound.mem_slots_tidy (h : c.Sound) (hk : c.callers[i]? = some k) (hu : k.Untidied)
    {e : Node × Nat} : e ∈ (c.table.tidy k.node k.slot).slots ↔
      e ∈ c.table.slots ∧ ¬ (e.2 = k.slot ∧ c.Alone i k.slot) := by
  have hlisted := h.listed k (List.mem_of_getElem? hk) hu
  have htwo := h.references_eq_two_iff hk hu
  unfold LockTable.tidy
  by_cases halone : c.Alone i k.slot
  · rw [if_pos (htwo.2 halone), List.mem_filter]
    simp only [halone, and_true, ne_eq, decide_not, Bool.not_eq_true', decide_eq_false_iff_not]
    refine and_congr_right fun he => not_congr ⟨?_, ?_⟩
    · rintro hn
      exact h.distinct.slot_eq (hn ▸ he) hlisted
    · rintro hs
      exact h.distinct.node_eq (hs ▸ he) hlisted
  · rw [if_neg fun h => halone (htwo.1 h)]
    simp [halone]

theorem count_holders_turn (h : c.Sound) (hk : c.callers[i]? = some k) (hphase : k.phase = a.before)
    (slot : Nat) : (a.table c.table k).holders.count slot =
      holding (c.callers.set i { k with phase := a.after }) slot := by
  have hset := holding_set hk { k with phase := a.after } slot
  have hcount := h.count_holders slot
  have hsame (hb : a.before ≠ .gone) (ha : a.after ≠ .gone) :
      ({ k with phase := a.after } : Caller).Holds slot ↔ k.Holds slot := by
    simp [Caller.Holds, hphase, hb, ha]
  cases a with
  | drop =>
    have hgone : ¬ ({ k with phase := Turn.drop.after } : Caller).Holds slot := fun h => h.2 rfl
    have hholds : k.Holds slot ↔ k.slot = slot := by simp [Caller.Holds, hphase, Turn.before]
    rw [if_neg hgone, if_congr hholds rfl rfl] at hset
    show (c.table.holders.erase k.slot).count slot = _
    rw [List.count_erase, hcount, ← Nat.add_zero (holding c.callers slot), ← hset]
    simp
  | tidy =>
    rw [if_congr (hsame nofun nofun) rfl rfl] at hset
    have htidy : (c.table.tidy k.node k.slot).holders = c.table.holders := by
      unfold LockTable.tidy
      split <;> rfl
    show (c.table.tidy k.node k.slot).holders.count slot = _
    rw [htidy]
    omega
  | _ =>
    rw [if_congr (hsame nofun nofun) rfl rfl] at hset
    show c.table.holders.count slot = _
    omega

theorem Sound.turn (h : c.Sound) (hk : c.callers[i]? = some k) (hphase : k.phase = a.before) :
    Sound ⟨a.table c.table k, c.callers.set i { k with phase := a.after }⟩ := by
  have hmem := List.mem_of_getElem? hk
  refine ⟨h.distinct.turn a k, count_holders_turn h hk hphase, ?_, ?_⟩
  · intro k' hk'
    show k'.slot < (a.table c.table k).fresh
    rw [LockTable.fresh_turn]
    rcases List.mem_or_eq_of_mem_set hk' with hk' | rfl
    · exact h.slot_lt k' hk'
    · exact h.slot_lt k hmem
  · intro k' hk' hu
    obtain ⟨j, hj⟩ := List.mem_iff_getElem?.1 hk'
    by_cases hji : j = i
    · -- Only a caller that locks or unlocks has yet to tidy, and it leaves the table as it is.
      subst hji
      rw [List.getElem?_set_self (List.getElem?_eq_some_iff.1 hk).1] at hj
      cases hj
      cases a with
      | lock => exact h.listed k hmem (.inl hphase)
      | unlock => exact h.listed k hmem (.inr (.inl hphase))
      | _ => rcases hu with hu | hu | hu <;> cases hu
    · rw [List.getElem?_set_ne (Ne.symm hji)] at hj
      have hlisted := h.listed k' (List.mem_of_getElem? hj) hu
      cases a with
      | tidy =>
        refine (h.mem_slots_tidy hk (.inr (.inr hphase))).2 ⟨hlisted, ?_⟩
        rintro ⟨hslot, halone⟩
        exact halone j k' hj hji (hslot ▸ hu.holds)
      | _ => exact hlisted

theorem Sound.step? (h : c.Sound) {m : Move} (hm : c.step? m = some c') : c'.Sound := by
  cases m with
  | enter n =>
    obtain rfl := step?_enter.1 hm
    exact h.enter n
  | turn i a =>
    obtain ⟨k, hk, hphase, -, rfl⟩ := step?_turn.1 hm
    exact h.turn hk hphase

/-- **The table and the callers agree** after every run. -/
theorem sound_of_run? (hrun : run? {} moves = some c) : c.Sound := by
  induction moves using List.reverseRecOn generalizing c with
  | nil =>
    cases hrun
    exact sound_empty
  | append_singleton moves m ih =>
    obtain ⟨d, hd, hm⟩ := (run?_concat moves m).1 hrun
    exact (ih hd).step? hm

end Crowd

end ImplicitTiling
