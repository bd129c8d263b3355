import ImplicitTiling.Proofs.Store.Crowd

/-!
# One caller at a time

A rank root may get one slot after another, while callers that are done with an old slot still refer
to it. But callers that have yet to tidy have one slot exactly if they have one rank root
(`Sound.slot_eq_iff`), because their slots are listed. So no two callers of one rank root are inside at
once, and a caller waits for nobody but the caller of its own rank root that is inside
(`excludes_of_run?`).
-/

namespace ImplicitTiling.Crowd

variable {c c' : Crowd} {i : Nat} {k k' : Caller} {m : Move} {moves : List Move}

theorem Sound.slot_eq_iff (h : c.Sound) (hk : k ∈ c.callers) (hk' : k' ∈ c.callers)
    (hu : k.Untidied) (hu' : k'.Untidied) : k'.slot = k.slot ↔ k'.node = k.node := by
  have hlisted := h.listed k hk hu
  have hlisted' := h.listed k' hk' hu'
  constructor
  · intro hslot
    exact h.distinct.node_eq (hslot ▸ hlisted') hlisted
  · intro hnode
    exact h.distinct.slot_eq (hnode ▸ hlisted') hlisted

theorem Sound.free_iff (h : c.Sound) (hk : k ∈ c.callers) (hphase : k.phase = .waiting) :
    c.Free k.slot ↔ ∀ k' ∈ c.callers, k'.node = k.node → k'.phase ≠ .inside := by
  have hiff (k' : Caller) (hk' : k' ∈ c.callers) (hinside : k'.phase = .inside) :
      k'.slot = k.slot ↔ k'.node = k.node :=
    h.slot_eq_iff hk hk' (.inl hphase) (.inr (.inl hinside))
  constructor
  · intro hfree k' hk' hnode hinside
    exact hfree k' hk' ((hiff k' hk' hinside).2 hnode) hinside
  · intro hnone k' hk' hslot hinside
    exact hnone k' hk' ((hiff k' hk' hinside).1 hslot) hinside

/-! ## Inside -/

/-- No two callers have locked one slot. -/
def Exclusive (c : Crowd) : Prop :=
  ∀ (i j : Nat) (k k' : Caller), c.callers[i]? = some k → c.callers[j]? = some k' →
    k.phase = .inside → k'.phase = .inside → k'.slot = k.slot → i = j

theorem Exclusive.enter (h : c.Exclusive) (table : LockTable) (n : Node) (slot : Nat) :
    Exclusive ⟨table, c.callers ++ [⟨n, slot, .waiting⟩]⟩ := by
  have hold {i : Nat} {k : Caller}
      (hk : (c.callers ++ [⟨n, slot, .waiting⟩])[i]? = some k) (hinside : k.phase = .inside) :
      c.callers[i]? = some k := by
    by_cases hi : i < c.callers.length
    · rwa [List.getElem?_append_left hi] at hk
    · rw [List.getElem?_append_right (Nat.le_of_not_lt hi)] at hk
      obtain rfl := List.mem_singleton.1 (List.mem_of_getElem? hk)
      cases hinside
  intro i j k k' hk hk' hinside hinside'
  exact h i j k k' (hold hk hinside) (hold hk' hinside') hinside hinside'

theorem Exclusive.turn (h : c.Exclusive) {a : Turn} (hk : c.callers[i]? = some k)
    (hfree : a = .lock → c.Free k.slot) (table : LockTable) :
    Exclusive ⟨table, c.callers.set i { k with phase := a.after }⟩ := by
  have hi := (List.getElem?_eq_some_iff.1 hk).1
  -- Whoever is inside now was inside before, or has just locked a slot that was free.
  have hcases {j : Nat} {k' : Caller}
      (hk' : (c.callers.set i { k with phase := a.after })[j]? = some k')
      (hinside : k'.phase = .inside) :
      j = i ∧ a = .lock ∧ k'.slot = k.slot ∨ j ≠ i ∧ c.callers[j]? = some k' := by
    by_cases hji : j = i
    · subst hji
      rw [List.getElem?_set_self hi] at hk'
      cases hk'
      cases a with
      | lock => exact .inl ⟨rfl, rfl, rfl⟩
      | _ => cases hinside
    · rw [List.getElem?_set_ne (Ne.symm hji)] at hk'
      exact .inr ⟨hji, hk'⟩
  intro j l k₁ k₂ hk₁ hk₂ h₁ h₂ hslot
  rcases hcases hk₁ h₁ with ⟨rfl, ha, hs₁⟩ | ⟨-, hold₁⟩
  · rcases hcases hk₂ h₂ with ⟨rfl, -⟩ | ⟨-, hold₂⟩
    · rfl
    · exact absurd h₂ (hfree ha k₂ (List.mem_of_getElem? hold₂) (hslot.trans hs₁))
  · rcases hcases hk₂ h₂ with ⟨rfl, ha, hs₂⟩ | ⟨-, hold₂⟩
    · exact absurd h₁ (hfree ha k₁ (List.mem_of_getElem? hold₁) (hslot.symm.trans hs₂))
    · exact h j l k₁ k₂ hold₁ hold₂ h₁ h₂ hslot

theorem Exclusive.step? (h : c.Exclusive) (hm : c.step? m = some c') : c'.Exclusive := by
  cases m with
  | enter n =>
    obtain rfl := step?_enter.1 hm
    exact h.enter _ n _
  | turn i a =>
    obtain ⟨k, hk, -, hfree, rfl⟩ := step?_turn.1 hm
    exact h.turn hk hfree _

theorem exclusive_of_run? (hrun : run? {} moves = some c) : c.Exclusive := by
  induction moves using List.reverseRecOn generalizing c with
  | nil =>
    cases hrun
    intro i j k k' hk
    cases hk
  | append_singleton moves m ih =>
    obtain ⟨d, hd, hm⟩ := (run?_concat moves m).1 hrun
    exact (ih hd).step? hm

/-! ## Waiting -/

/-- A caller whose turn it is can take it, unless it has to wait for the lock of its rank root. -/
theorem isSome_step?_turn_iff (h : c.Sound) {a : Turn} (hk : c.callers[i]? = some k)
    (hphase : k.phase = a.before) : (c.step? (.turn i a)).isSome ↔
      (a = .lock → ∀ k' ∈ c.callers, k'.node = k.node → k'.phase ≠ .inside) := by
  have hmem := List.mem_of_getElem? hk
  constructor
  · rintro hsome rfl
    obtain ⟨c', hc'⟩ := Option.isSome_iff_exists.1 hsome
    obtain ⟨k', hk', -, hfree, -⟩ := step?_turn.1 hc'
    cases hk.symm.trans hk'
    exact (h.free_iff hmem hphase).1 (hfree rfl)
  · intro hnone
    refine Option.isSome_iff_exists.2 ⟨_, step?_turn.2 ⟨k, hk, hphase, ?_, rfl⟩⟩
    rintro rfl
    exact (h.free_iff hmem hphase).2 (hnone rfl)

/-- **A lock excludes the callers of its rank root, and only them.** However callers take turns,
break off, and find old slots or make new ones, no two callers of one rank root are inside at once,
and each caller can always go on, except that it waits to lock while another caller of its own rank
root is inside. -/
theorem excludes_of_run? (hrun : run? {} moves = some c) :
    (∀ (i j : Nat) (k k' : Caller), c.callers[i]? = some k → c.callers[j]? = some k' →
      k.phase = .inside → k'.phase = .inside → k'.node = k.node → i = j) ∧
    (∀ (i : Nat) (k : Caller) (a : Turn), c.callers[i]? = some k → k.phase = a.before →
      ((c.step? (.turn i a)).isSome ↔
        (a = .lock → ∀ k' ∈ c.callers, k'.node = k.node → k'.phase ≠ .inside))) ∧
    ∀ k ∈ c.callers, ∀ k' ∈ c.callers, k.Untidied → k'.Untidied → k'.node ≠ k.node →
      k'.slot ≠ k.slot := by
  have hsound := sound_of_run? hrun
  refine ⟨?_, fun i k a hk hphase => isSome_step?_turn_iff hsound hk hphase, ?_⟩
  · intro i j k k' hk hk' hinside hinside' hnode
    refine exclusive_of_run? hrun i j k k' hk hk' hinside hinside' ?_
    exact (hsound.slot_eq_iff (List.mem_of_getElem? hk) (List.mem_of_getElem? hk')
      (.inr (.inl hinside)) (.inr (.inl hinside'))).2 hnode
  · intro k hk k' hk' hu hu' hnode hslot
    exact hnode ((hsound.slot_eq_iff hk hk' hu hu').1 hslot)

/-- The first caller of a rank root has tidied, and still refers to its old slot, when the second one
makes a new slot and goes inside; the third caller waits for it, while a caller of another rank root
goes inside. -/
theorem excludes_new_slot : ∃ moves c, run? {} moves = some c ∧
    c.callers = [⟨⟨0, 0⟩, 0, .parting⟩, ⟨⟨0, 0⟩, 1, .inside⟩, ⟨⟨0, 0⟩, 1, .waiting⟩,
      ⟨⟨1, 0⟩, 2, .inside⟩] ∧
    (c.step? (.turn 2 .lock)).isSome = false ∧ (c.step? (.turn 3 .breakOff)).isSome = true := by
  let moves : List Move := [.enter ⟨0, 0⟩, .turn 0 .lock, .turn 0 .unlock, .turn 0 .tidy,
    .enter ⟨0, 0⟩, .turn 1 .lock, .enter ⟨0, 0⟩, .enter ⟨1, 0⟩, .turn 3 .lock]
  obtain ⟨c, hrun⟩ : ∃ c, run? {} moves = some c := ⟨_, rfl⟩
  have hcallers : c.callers = [⟨⟨0, 0⟩, 0, .parting⟩, ⟨⟨0, 0⟩, 1, .inside⟩,
      ⟨⟨0, 0⟩, 1, .waiting⟩, ⟨⟨1, 0⟩, 2, .inside⟩] := by
    cases hrun
    rfl
  obtain ⟨-, hturn, -⟩ := excludes_of_run? hrun
  rw [hcallers] at hturn
  refine ⟨moves, c, hrun, hcallers, ?_, ?_⟩
  · rw [Bool.eq_false_iff, ne_eq, hturn 2 _ .lock rfl rfl]
    exact fun hnone => hnone rfl _ (.tail _ (.head _)) rfl rfl
  · exact (hturn 3 _ .breakOff rfl rfl).2 nofun

end ImplicitTiling.Crowd
