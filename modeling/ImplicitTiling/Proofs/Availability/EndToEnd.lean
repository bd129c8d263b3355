import ImplicitTiling.Proofs.Availability.Quadrants
import ImplicitTiling.Proofs.Availability.Reduction
import Mathlib.Data.List.Forall2

/-!
# Reducing leaves and joining quadrants

A rank is built in one of two ways: reduced from all of its leaves, or joined from its quadrants.
`concatenate_ofLeaves` says that both give the same pyramid. Below the root, the leaves under a bit
all stand in the quadrant of the bit (`EndToEnd.reaches_iff`), and the root is over all of them
(`EndToEnd.reaches_root_iff`).
-/

namespace ImplicitTiling.Availability

theorem exists_mapM_eq_ok {α β ε : Type} {f : α → Except ε β} {post : α → β → Prop}
    {items : List α} (h : ∀ a ∈ items, ∃ b, f a = .ok b ∧ post a b) :
    ∃ values, items.mapM f = .ok values ∧ List.Forall₂ post items values := by
  induction items with
  | nil => exact ⟨[], rfl, .nil⟩
  | cons a items ih =>
    obtain ⟨ha, hitems⟩ := List.forall_mem_cons.1 h
    obtain ⟨b, hb, hpost⟩ := ha
    obtain ⟨values, hvalues, hall⟩ := ih hitems
    refine ⟨b :: values, ?_, .cons hpost hall⟩
    rw [List.mapM_cons, hb, hvalues]
    rfl

theorem div_block {depth i q k j : Nat} (hi : i ≤ depth) (hk : k < 4 ^ depth)
    (hj : j < 4 ^ i) {q' : Nat} :
    (q' * 4 ^ depth + k) / 4 ^ (depth - i) = q * 4 ^ i + j ↔ q' = q ∧ k / 4 ^ (depth - i) = j := by
  have hpos : 0 < 4 ^ (depth - i) := Nat.pow_pos (by decide)
  have hsplit : 4 ^ depth = 4 ^ i * 4 ^ (depth - i) := by
    rw [← Nat.pow_add, Nat.add_sub_cancel' hi]
  have hlt : k / 4 ^ (depth - i) < 4 ^ i := by
    rw [hsplit] at hk
    exact Nat.div_lt_of_lt_mul (by rwa [Nat.mul_comm])
  rw [hsplit, ← Nat.mul_assoc, Nat.add_comm, Nat.add_mul_div_right _ _ hpos, Nat.add_comm]
  have hblock {q r : Nat} (hr : r < 4 ^ i) :
      (q * 4 ^ i + r) / 4 ^ i = q ∧ (q * 4 ^ i + r) % 4 ^ i = r :=
    (Nat.div_mod_unique (Nat.pow_pos (by decide))).2 ⟨by rw [Nat.add_comm, Nat.mul_comm], hr⟩
  constructor
  · intro h
    obtain ⟨hq, hr⟩ := hblock (q := q') hlt
    rw [h] at hq hr
    exact ⟨hq.symm.trans (hblock hj).1, hr.symm.trans (hblock hj).2⟩
  · rintro ⟨rfl, rfl⟩
    rfl

/-- A bit of a reduced row, with the levels that have to be kept and the leaves below it. -/
def Reaches (keep : Nat → Bool) (depth : Nat) (leaves : Bitset) (i j : Nat) : Prop :=
  (∀ l, i ≤ l → l < depth → keep l = true) ∧ ∃ k, leaves.get k = true ∧ k / 4 ^ (depth - i) = j

section

variable {rows : List Bitset} {depth : Nat} {joined : Bitset}

/-- The row that holds the rows of four quadrants end to end. -/
structure EndToEnd (rows : List Bitset) (depth : Nat) (joined : Bitset) : Prop where
  length_eq : rows.length = 4
  size_row : ∀ row ∈ rows, row.size = 4 ^ depth
  size_eq : joined.size = 4 ^ (depth + 1)
  get_eq : ∀ q (hq : q < rows.length), ∀ j < 4 ^ depth,
    joined.get (q * 4 ^ depth + j) = rows[q].get j

theorem endToEnd_joinRows (h4 : rows.length = 4) (hsize : ∀ row ∈ rows, row.size = 4 ^ depth) :
    EndToEnd rows depth (joinRows rows (4 ^ depth)) where
  length_eq := h4
  size_row := hsize
  size_eq := by rw [size_joinRows, Nat.pow_succ, Nat.mul_comm]
  get_eq _ hq _ hj := get_joinRows h4 hsize hq hj

theorem EndToEnd.get_iff (h : EndToEnd rows depth joined) {k : Nat} :
    joined.get k = true ↔ ∃ q, ∃ hq : q < rows.length, ∃ r < 4 ^ depth,
      k = q * 4 ^ depth + r ∧ rows[q].get r = true := by
  constructor
  · intro hk
    obtain ⟨q, hq, r, hr, rfl, -⟩ := exists_quadrant 0 (h.size_eq ▸ Bitset.get_lt hk)
    have hq' : q < rows.length := h.length_eq ▸ hq
    exact ⟨q, hq', r, hr, rfl, h.get_eq q hq' r hr ▸ hk⟩
  · rintro ⟨q, hq, r, hr, rfl, hget⟩
    rw [h.get_eq q hq r hr, hget]

theorem kept_below_iff {keep keep' : Nat → Bool} (hkeep : ∀ i, keep' (i + 1) = keep i) {i : Nat} :
    (∀ l, i + 1 ≤ l → l < depth + 1 → keep' l = true) ↔
      ∀ l, i ≤ l → l < depth → keep l = true := by
  constructor
  · intro h l hil hl
    rw [← hkeep]
    exact h (l + 1) (Nat.succ_le_succ hil) (Nat.succ_lt_succ hl)
  · intro h l hil hl
    obtain ⟨l, rfl⟩ : ∃ l', l = l' + 1 := ⟨l - 1, by omega⟩
    rw [hkeep]
    exact h l (Nat.le_of_succ_le_succ hil) (Nat.lt_of_succ_lt_succ hl)

theorem EndToEnd.reaches_iff (h : EndToEnd rows depth joined) {keep keep' : Nat → Bool}
    (hkeep : ∀ i, keep' (i + 1) = keep i) {i : Nat} (hi : i ≤ depth) {q : Nat}
    (hq : q < rows.length) {j : Nat} (hj : j < 4 ^ i) :
    Reaches keep' (depth + 1) joined (i + 1) (q * 4 ^ i + j) ↔ Reaches keep depth rows[q] i j := by
  unfold Reaches
  rw [kept_below_iff hkeep, Nat.add_sub_add_right]
  refine and_congr_right fun _ => ?_
  constructor
  · rintro ⟨k, hk, hdiv⟩
    obtain ⟨q', hq', r, hr, rfl, hget⟩ := h.get_iff.1 hk
    obtain ⟨rfl, hr'⟩ := (div_block hi hr hj).1 hdiv
    exact ⟨r, hget, hr'⟩
  · rintro ⟨r, hget, hdiv⟩
    have hr : r < 4 ^ depth := h.size_row _ (List.getElem_mem hq) ▸ Bitset.get_lt hget
    exact ⟨_, h.get_iff.2 ⟨q, hq, r, hr, rfl, hget⟩, (div_block hi hr hj).2 ⟨rfl, hdiv⟩⟩

theorem EndToEnd.reaches_root_iff (h : EndToEnd rows depth joined) {keep keep' : Nat → Bool}
    (hkeep : ∀ i, keep' (i + 1) = keep i) :
    Reaches keep' (depth + 1) joined 0 0 ↔
      keep' 0 = true ∧ ∃ q, ∃ hq : q < rows.length, Reaches keep depth rows[q] 0 0 := by
  have hroot {n k : Nat} (hk : k < 4 ^ n) : k / 4 ^ (n - 0) = 0 := Nat.div_eq_of_lt hk
  constructor
  · rintro ⟨hkept, k, hk, -⟩
    obtain ⟨q, hq, r, hr, -, hget⟩ := h.get_iff.1 hk
    refine ⟨hkept 0 (Nat.le_refl 0) (Nat.succ_pos depth), q, hq, ?_, r, hget, hroot hr⟩
    exact (kept_below_iff hkeep).1 fun l _ hl => hkept l (Nat.zero_le l) hl
  · rintro ⟨h0, q, hq, hkept, r, hget, -⟩
    have hr : r < 4 ^ depth := h.size_row _ (List.getElem_mem hq) ▸ Bitset.get_lt hget
    have hk := h.get_iff.2 ⟨q, hq, r, hr, rfl, hget⟩
    refine ⟨?_, _, hk, hroot (h.size_eq ▸ Bitset.get_lt hk)⟩
    intro l _ hl
    rcases Nat.eq_zero_or_pos l with rfl | hpos
    · exact h0
    · exact (kept_below_iff hkeep).2 hkept l hpos hl

/-- Reducing the rows of four quadrants and joining the pyramids is reducing the joined row. Its
levels are counted from one level further up. -/
theorem EndToEnd.concatenate_reduce (h : EndToEnd rows depth joined) {keep keep' : Nat → Bool}
    (hkeep : ∀ i, keep' (i + 1) = keep i) {content : Bool} (hroot : keep' 0 = !content) :
    ∃ whole, reduce joined (4 ^ (depth + 1)) keep' = .ok whole ∧
      (do concatenate (← rows.mapM fun row => reduce row (4 ^ depth) keep) .pyramid content) =
        .ok whole := by
  obtain ⟨whole, hwhole, hwt, hwl, hwb⟩ := reduce_eq_ok h.size_eq keep'
  obtain ⟨parts, hparts, hall⟩ := exists_mapM_eq_ok (f := fun row => reduce row (4 ^ depth) keep)
    fun row hrow => reduce_eq_ok (h.size_row row hrow) keep
  have hlen : parts.length = rows.length := hall.length_eq.symm
  have hpart (q : Nat) (hq : q < rows.length) := hall.get hq (hlen ▸ hq)
  have hshape : ∀ p ∈ parts, p.topology = .pyramid ∧ p.levelCount = depth + 1 := by
    intro p hp
    obtain ⟨q, hq, rfl⟩ := List.getElem_of_mem hp
    obtain ⟨ht, hl, -⟩ := hpart q (hlen ▸ hq)
    exact ⟨ht, hl⟩
  obtain ⟨merged, hmerged, hmt, hml, hm0, hmb⟩ :=
    concatenate_pyramid parts (depth + 1) (hlen.trans h.length_eq) hshape content
  refine ⟨whole, hwhole, ?_⟩
  rw [hparts]
  refine hmerged.trans (congrArg Except.ok (ext_pyramid hmt hwt (hml.trans hwl.symm) ?_))
  intro i hi j hj
  rw [hml] at hi
  rw [Bool.eq_iff_iff, hwb i (by omega)]
  cases i with
  | zero =>
    obtain rfl : j = 0 := Nat.lt_one_iff.1 hj
    refine Iff.trans ?_ (h.reaches_root_iff hkeep).symm
    rw [hm0, hroot, Bool.and_eq_true, List.any_eq_true]
    refine and_congr_right fun _ => ?_
    constructor
    · rintro ⟨p, hp, hget⟩
      obtain ⟨q, hq, rfl⟩ := List.getElem_of_mem hp
      exact ⟨q, hlen ▸ hq, ((hpart q (hlen ▸ hq)).2.2 0 (Nat.zero_le _) 0).1 hget⟩
    · rintro ⟨q, hq, hreach⟩
      exact ⟨_, List.getElem_mem (hlen ▸ hq), ((hpart q hq).2.2 0 (Nat.zero_le _) 0).2 hreach⟩
  | succ i =>
    obtain ⟨q, hq, r, hr, rfl, -⟩ := exists_quadrant 0 hj
    have hq' : q < rows.length := h.length_eq ▸ hq
    rw [hmb i (by omega) q (hlen ▸ hq') r hr]
    exact ((hpart q hq').2.2 i (by omega) r).trans (h.reaches_iff hkeep (by omega) hq' hr).symm

/-- **Reducing and joining commute.** The pyramids over the leaves of four quadrants join to the
pyramid over all of the leaves, for tiles and for content. Within a quadrant the level from which on
there is content counts one less. -/
theorem concatenate_ofLeaves (h : EndToEnd rows depth joined) :
    (∃ whole, ofTileLeaves joined (4 ^ (depth + 1)) = .ok whole ∧
      (do concatenate (← rows.mapM fun row => ofTileLeaves row (4 ^ depth)) .pyramid false) =
        .ok whole) ∧
    ∀ minContentLevel : Int, 1 ≤ minContentLevel →
      ∃ whole, ofContentLeaves joined (4 ^ (depth + 1)) (minContentLevel + 1) = .ok whole ∧
        (do
          let parts ← rows.mapM fun row => ofContentLeaves row (4 ^ depth) minContentLevel
          concatenate parts .pyramid true) = .ok whole := by
  constructor
  · exact h.concatenate_reduce (fun _ => rfl) rfl
  · intro minContentLevel hmin
    refine h.concatenate_reduce (fun i => ?_) ?_
    · refine decide_eq_decide.2 ?_
      omega
    · exact decide_eq_false (by omega)

/-- Four quadrants of four leaves each, of which one is empty and one is full. -/
theorem concatenate_ofLeaves_four : ∃ rows : List Bitset, ∃ joined, EndToEnd rows 1 joined ∧
    (∃ whole, ofTileLeaves joined 16 = .ok whole ∧
      (do concatenate (← rows.mapM fun row => ofTileLeaves row 4) .pyramid false) = .ok whole) ∧
    (1 : Int) ≤ 1 ∧ ∃ whole, ofContentLeaves joined 16 2 = .ok whole ∧
      (do concatenate (← rows.mapM fun row => ofContentLeaves row 4 1) .pyramid true) =
        .ok whole := by
  have h : EndToEnd [Bitset.ofIndices 4 [1], .empty 4, .ofIndices 4 [0, 3], .full 4] 1 _ :=
    endToEnd_joinRows rfl (by simp)
  exact ⟨_, _, h, (concatenate_ofLeaves h).1, Int.le_refl 1,
    (concatenate_ofLeaves h).2 1 (Int.le_refl 1)⟩

end

end ImplicitTiling.Availability
