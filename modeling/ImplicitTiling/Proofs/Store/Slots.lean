import ImplicitTiling.Proofs.Store.Crowd

/-!
# Which slots stay in the table

A slot leaves the table with a caller that tidies while no other caller refers to it, and in no other
way (`lists_step?`, `made_iff`). A caller gives its reference up only after it has tidied, so two
callers of one slot can find each other there: then both return and the slot stays
(`two_callers_keep_slot`). The table is empty exactly when each slot had a caller that was alone with
it when it tidied (`inFlight_eq_zero_iff`). That is so where no caller tidies while another one of its
slot is between tidying and giving up (`inFlight_eq_zero_of_prompt`).
-/

namespace ImplicitTiling.Crowd

variable {c c' : Crowd} {m : Move} {moves : List Move} {slot : Nat}

/-! ## One move -/

/-- The slot is listed under some rank root. -/
def Lists (c : Crowd) (slot : Nat) : Prop :=
  ∃ n, (n, slot) ∈ c.table.slots

/-- The move is that of a caller that tidies and is alone with the slot. -/
def TidiesAlone (c : Crowd) (m : Move) (slot : Nat) : Prop :=
  ∃ i k, m = .turn i .tidy ∧ c.callers[i]? = some k ∧ k.slot = slot ∧ c.Alone i slot

theorem inFlight_eq_zero_iff_lists : c.table.inFlight = 0 ↔ ∀ slot, ¬ c.Lists slot := by
  unfold LockTable.inFlight Lists
  rw [List.length_eq_zero_iff, List.eq_nil_iff_forall_not_mem]
  constructor
  · rintro h slot ⟨n, hn⟩
    exact h (n, slot) hn
  · exact fun h e he => h e.2 ⟨e.1, he⟩

theorem lists_step? (h : c.Sound) (hm : c.step? m = some c') (slot : Nat) :
    c.table.fresh ≤ c'.table.fresh ∧
      (c'.Lists slot ↔ (c.Lists slot ∨ c.table.fresh ≤ slot ∧ slot < c'.table.fresh) ∧
        ¬ c.TidiesAlone m slot) := by
  have hkeep (hfresh : c'.table.fresh = c.table.fresh) (hslots : c'.table.slots = c.table.slots)
      (hnot : ¬ c.TidiesAlone m slot) : c.table.fresh ≤ c'.table.fresh ∧
      (c'.Lists slot ↔ (c.Lists slot ∨ c.table.fresh ≤ slot ∧ slot < c'.table.fresh) ∧
        ¬ c.TidiesAlone m slot) := by
    have hnone : ¬ (c.table.fresh ≤ slot ∧ slot < c.table.fresh) := by omega
    rw [Lists, hslots, hfresh]
    exact ⟨Nat.le_refl _, by simp [hnone, hnot, Lists]⟩
  cases m with
  | enter n =>
    have hnot : ¬ c.TidiesAlone (.enter n) slot := by
      rintro ⟨i, k, h, -⟩
      cases h
    obtain rfl := step?_enter.1 hm
    rcases c.table.enter_cases n with ⟨found, -, heq⟩ | ⟨-, heq⟩
    · exact hkeep (by rw [heq]) (by rw [heq]) hnot
    · have hlists : (∃ n', (n', slot) ∈ (n, c.table.fresh) :: c.table.slots) ↔
          c.Lists slot ∨ slot = c.table.fresh := by
        simp only [List.mem_cons, Prod.mk.injEq, exists_or, Lists]
        simp [or_comm]
      rw [Lists, heq]
      refine ⟨Nat.le_succ _, hlists.trans ?_⟩
      rw [and_iff_left hnot]
      exact or_congr_right (by dsimp only; omega)
  | turn i a =>
    obtain ⟨k, hk, hphase, -, rfl⟩ := step?_turn.1 hm
    by_cases ha : a = .tidy
    · subst ha
      have htidies : c.TidiesAlone (.turn i .tidy) slot ↔ slot = k.slot ∧ c.Alone i k.slot := by
        constructor
        · rintro ⟨j, k', hj, hk', rfl, halone⟩
          cases hj
          cases hk.symm.trans hk'
          exact ⟨rfl, halone⟩
        · rintro ⟨rfl, halone⟩
          exact ⟨i, k, rfl, hk, rfl, halone⟩
      have hfresh : (Turn.tidy.table c.table k).fresh = c.table.fresh := LockTable.fresh_turn _ _ _
      have hnone : ¬ (c.table.fresh ≤ slot ∧ slot < c.table.fresh) := by omega
      rw [hfresh, htidies, or_iff_left hnone]
      refine ⟨Nat.le_refl _, ?_⟩
      show (∃ n, (n, slot) ∈ (c.table.tidy k.node k.slot).slots) ↔ _
      simp only [h.mem_slots_tidy hk (.inr (.inr hphase)), exists_and_right, Lists]
    · have hslots : (a.table c.table k).slots = c.table.slots := by
        cases a <;> first | rfl | exact absurd rfl ha
      refine hkeep (LockTable.fresh_turn _ _ _) hslots ?_
      rintro ⟨j, k', hj, -⟩
      cases hj
      exact ha rfl

/-! ## A run -/

/-- In the run, some caller of the slot was alone with it when it tidied. -/
def TidiedAlone (moves : List Move) (slot : Nat) : Prop :=
  ∃ earlier m later c, moves = earlier ++ m :: later ∧ run? {} earlier = some c ∧
    c.TidiesAlone m slot

theorem not_tidiedAlone_nil : ¬ TidiedAlone [] slot := by
  rintro ⟨earlier, m, later, -, h, -⟩
  exact List.cons_ne_nil _ _ (List.append_eq_nil_iff.1 h.symm).2

theorem tidiedAlone_concat (hrun : run? {} moves = some c) :
    TidiedAlone (moves ++ [m]) slot ↔ TidiedAlone moves slot ∨ c.TidiesAlone m slot := by
  constructor
  · rintro ⟨earlier, m', later, d, hsplit, hd, h⟩
    rcases List.eq_nil_or_concat later with rfl | ⟨later, last, rfl⟩
    · obtain ⟨rfl, heq⟩ := List.append_inj' hsplit rfl
      cases heq
      cases hrun.symm.trans hd
      exact .inr h
    · rw [List.concat_eq_append, ← List.cons_append, ← List.append_assoc] at hsplit
      exact .inl ⟨earlier, m', later, d, (List.append_inj' hsplit rfl).1, hd, h⟩
  · rintro (⟨earlier, m', later, d, rfl, h⟩ | h)
    · exact ⟨earlier, m', later ++ [m], d, by simp, h⟩
    · exact ⟨moves, m, [], c, rfl, hrun, h⟩

theorem made_iff (hrun : run? {} moves = some c) (slot : Nat) :
    (slot < c.table.fresh ↔ c.Lists slot ∨ TidiedAlone moves slot) ∧
      ¬ (c.Lists slot ∧ TidiedAlone moves slot) := by
  induction moves using List.reverseRecOn generalizing c with
  | nil =>
    cases hrun
    have hlists : ¬ ({} : Crowd).Lists slot := by
      rintro ⟨n, hn⟩
      cases hn
    simp [hlists, not_tidiedAlone_nil]
  | append_singleton moves m ih =>
    obtain ⟨d, hd, hm⟩ := (run?_concat moves m).1 hrun
    obtain ⟨hmade, hnot⟩ := ih hd
    obtain ⟨hfresh, hlists⟩ := lists_step? (sound_of_run? hd) hm slot
    have halone : d.TidiesAlone m slot → d.Lists slot := by
      rintro ⟨i, k, rfl, hk, rfl, -⟩
      obtain ⟨k', hk', hphase, -⟩ := step?_turn.1 hm
      cases hk.symm.trans hk'
      exact ⟨k.node, (sound_of_run? hd).listed k (List.mem_of_getElem? hk) (.inr (.inr hphase))⟩
    rw [tidiedAlone_concat hd, hlists]
    grind

/-- **Which slots stay.** After a run the table is empty exactly when every slot that was made had a
caller that was alone with it when it tidied. -/
theorem inFlight_eq_zero_iff (hrun : run? {} moves = some c) :
    c.table.inFlight = 0 ↔ ∀ slot < c.table.fresh, TidiedAlone moves slot := by
  rw [inFlight_eq_zero_iff_lists]
  constructor
  · intro h slot hslot
    exact ((made_iff hrun slot).1.1 hslot).resolve_left (h slot)
  · intro h slot hlists
    have hslot := (made_iff hrun slot).1.2 (.inl hlists)
    exact (made_iff hrun slot).2 ⟨hlists, h slot hslot⟩

/-- Where the second of two callers tidies after the first has given its reference up, the slot
leaves the table. -/
theorem inFlight_eq_zero_two_callers : ∃ c, run? {} [.enter ⟨0, 0⟩, .enter ⟨0, 0⟩, .turn 0 .lock,
      .turn 0 .unlock, .turn 0 .tidy, .turn 1 .lock, .turn 0 .drop, .turn 1 .unlock, .turn 1 .tidy,
      .turn 1 .drop] = some c ∧ c.table.inFlight = 0 ∧
    ∀ slot < c.table.fresh, TidiedAlone [.enter ⟨0, 0⟩, .enter ⟨0, 0⟩, .turn 0 .lock,
      .turn 0 .unlock, .turn 0 .tidy, .turn 1 .lock, .turn 0 .drop, .turn 1 .unlock, .turn 1 .tidy,
      .turn 1 .drop] slot :=
  ⟨_, rfl, rfl, (inFlight_eq_zero_iff rfl).1 rfl⟩

/-- Two callers of one rank root that tidy before either gives its reference up: both return, nobody
breaks off, and the slot stays. -/
theorem two_callers_keep_slot : ∃ moves c, run? {} moves = some c ∧
    (∀ i, .turn i .breakOff ∉ moves) ∧ (∀ k ∈ c.callers, k.phase = .gone) ∧
    c.table.inFlight = 1 := by
  refine ⟨[.enter ⟨0, 0⟩, .enter ⟨0, 0⟩, .turn 0 .lock, .turn 0 .unlock, .turn 0 .tidy,
    .turn 1 .lock, .turn 1 .unlock, .turn 1 .tidy, .turn 0 .drop, .turn 1 .drop], _, rfl, ?_, ?_,
    rfl⟩
  · simp
  · decide

/-! ## Callers that do not overtake each other -/

/-- No caller tidies while another one of its slot has tidied and not yet given its reference up. -/
def Prompt (moves : List Move) : Prop :=
  ∀ earlier i later c k, moves = earlier ++ .turn i .tidy :: later → run? {} earlier = some c →
    c.callers[i]? = some k → ∀ k' ∈ c.callers, k'.slot = k.slot → k'.phase ≠ .parting

/-- Every listed slot has a caller that has yet to tidy. -/
def Awaited (c : Crowd) : Prop :=
  ∀ slot, c.Lists slot → ∃ k ∈ c.callers, k.slot = slot ∧ k.Untidied

theorem Awaited.enter (h : c.Awaited) (n : Node) :
    Awaited ⟨(c.table.enter n).2, c.callers ++ [⟨n, (c.table.enter n).1, .waiting⟩]⟩ := by
  rintro slot ⟨n', hn'⟩
  have hold (hlists : c.Lists slot) : ∃ k ∈ c.callers ++ [⟨n, (c.table.enter n).1, .waiting⟩],
      k.slot = slot ∧ k.Untidied := by
    obtain ⟨k, hk, h⟩ := h slot hlists
    exact ⟨k, List.mem_append_left _ hk, h⟩
  rcases c.table.enter_cases n with ⟨found, -, heq⟩ | ⟨-, heq⟩
  · rw [heq] at hn'
    exact hold ⟨n', hn'⟩
  · rw [heq] at hn' ⊢
    rcases List.mem_cons.1 hn' with hnew | hn'
    · cases hnew
      exact ⟨_, List.mem_append_right _ (List.mem_singleton.2 rfl), rfl, .inl rfl⟩
    · rw [heq] at hold
      exact hold ⟨n', hn'⟩

theorem Awaited.turn (h : c.Awaited) (hsound : c.Sound) {i : Nat} {a : Turn}
    (hm : c.step? (.turn i a) = some c') (ha : a ≠ .breakOff)
    (hprompt : a = .tidy → ∀ k, c.callers[i]? = some k →
      ∀ k' ∈ c.callers, k'.slot = k.slot → k'.phase ≠ .parting) : c'.Awaited := by
  intro slot hlists
  obtain ⟨hold, hnot⟩ := (lists_step? hsound hm slot).2.1 hlists
  obtain ⟨k, hk, hphase, -, rfl⟩ := step?_turn.1 hm
  -- A caller that does not move goes on waiting for its turn to tidy.
  have hstay {j : Nat} {k' : Caller} (hj : c.callers[j]? = some k') (hji : j ≠ i)
      (hk' : k'.slot = slot ∧ k'.Untidied) :
      ∃ k' ∈ c.callers.set i { k with phase := a.after }, k'.slot = slot ∧ k'.Untidied := by
    refine ⟨k', List.mem_of_getElem? (i := j) ?_, hk'⟩
    rwa [List.getElem?_set_ne (Ne.symm hji)]
  have hmoved (hslot : k.slot = slot) (hu : ({ k with phase := a.after } : Caller).Untidied) :
      ∃ k' ∈ c.callers.set i { k with phase := a.after }, k'.slot = slot ∧ k'.Untidied :=
    ⟨_, List.mem_set (List.getElem?_eq_some_iff.1 hk).1 _, hslot, hu⟩
  have hlisted : c.Lists slot := by
    rw [LockTable.fresh_turn] at hold
    exact hold.resolve_right (by omega)
  obtain ⟨k', hk', hslot, hu⟩ := h slot hlisted
  obtain ⟨j, hj⟩ := List.mem_iff_getElem?.1 hk'
  by_cases hji : j = i
  · subst hji
    cases hk.symm.trans hj
    cases a with
    | lock => exact hmoved hslot (.inr (.inl rfl))
    | unlock => exact hmoved hslot (.inr (.inr rfl))
    | breakOff => exact absurd rfl ha
    | drop => exact absurd hphase (Caller.untidied_iff.1 hu).1
    | tidy =>
      -- It was not alone, and who was there with it has yet to tidy.
      obtain ⟨l, k', hl, hlj, hholds⟩ : ∃ l k', c.callers[l]? = some k' ∧ l ≠ j ∧ k'.Holds slot := by
        by_contra hnone
        refine hnot ⟨j, k, rfl, hk, hslot, fun l k' hl hlj hholds => ?_⟩
        exact hnone ⟨l, k', hl, hlj, hholds⟩
      have hparting := hprompt rfl k hk k' (List.mem_of_getElem? hl) (hholds.1.trans hslot.symm)
      exact hstay hl hlj ⟨hholds.1, Caller.untidied_iff.2 ⟨hparting, hholds.2⟩⟩
  · exact hstay hj hji ⟨hslot, hu⟩

theorem awaited_of_run? (hrun : run? {} moves = some c) (hbreak : ∀ i, .turn i .breakOff ∉ moves)
    (hprompt : Prompt moves) : c.Awaited := by
  induction moves using List.reverseRecOn generalizing c with
  | nil =>
    cases hrun
    rintro slot ⟨n, hn⟩
    cases hn
  | append_singleton moves m ih =>
    obtain ⟨d, hd, hm⟩ := (run?_concat moves m).1 hrun
    have hawaited : d.Awaited := by
      refine ih hd (fun i hi => hbreak i (List.mem_append_left _ hi)) ?_
      intro earlier i later e k hsplit
      exact hprompt earlier i (later ++ [m]) e k (by simp [hsplit])
    cases m with
    | enter n =>
      obtain rfl := step?_enter.1 hm
      exact hawaited.enter n
    | turn i a =>
      refine hawaited.turn (sound_of_run? hd) hm ?_ ?_
      · rintro rfl
        exact hbreak i (List.mem_append_right _ (List.mem_singleton.2 rfl))
      · rintro rfl k hk
        exact hprompt moves i [] d k rfl hd hk

/-- **Nothing stays behind callers that are prompt.** Where nobody breaks off and no caller tidies
between the last two moves of another one of its slot, the table is empty once all have returned. -/
theorem inFlight_eq_zero_of_prompt (hrun : run? {} moves = some c)
    (hbreak : ∀ i, .turn i .breakOff ∉ moves) (hprompt : Prompt moves)
    (hgone : ∀ k ∈ c.callers, k.phase = .gone) : c.table.inFlight = 0 := by
  rw [inFlight_eq_zero_iff_lists]
  intro slot hlists
  obtain ⟨k, hk, -, hu⟩ := awaited_of_run? hrun hbreak hprompt slot hlists
  exact (Caller.untidied_iff.1 hu).2 (hgone k hk)

end ImplicitTiling.Crowd
