import ImplicitTiling.Availability

/-!
# Rows of an availability

What the checks of `Availability.ofRows` let through, the lengths of rows, and extensionality: two
pyramids of one depth that agree on every bit are equal (`Availability.ext_pyramid`), and so are two
child rows (`Availability.ext_children`).
-/

namespace ImplicitTiling

/-! ## Lengths -/

@[simp] theorem log4?_four_pow (n : Nat) : log4? (4 ^ n) = some n := by
  have hlog : (4 ^ n).log2 = 2 * n := by
    rw [show 4 = 2 ^ 2 from rfl, ← Nat.pow_mul, Nat.log2_two_pow]
  unfold log4?
  rw [hlog, Nat.mul_div_cancel_left n (by omega), if_pos rfl]

theorem log4?_eq_some_iff {n k : Nat} : log4? n = some k ↔ n = 4 ^ k := by
  constructor
  · exact four_pow_of_log4?
  · rintro rfl
    exact log4?_four_pow k

theorem three_mul_pyramidLength (levels : Nat) : 3 * pyramidLength levels + 1 = 4 ^ levels := by
  unfold pyramidLength
  have hmod : 4 ^ levels % 3 = 1 := by
    rw [Nat.pow_mod]
    simp
  have hpos : 0 < 4 ^ levels := Nat.pow_pos (by omega)
  omega

theorem pyramidLength_succ (levels : Nat) :
    pyramidLength (levels + 1) = pyramidLength levels + 4 ^ levels := by
  have h := three_mul_pyramidLength levels
  have h' := three_mul_pyramidLength (levels + 1)
  rw [Nat.pow_succ] at h'
  omega

theorem pyramidLength_mono {i j : Nat} (h : i ≤ j) : pyramidLength i ≤ pyramidLength j := by
  have hi := three_mul_pyramidLength i
  have hj := three_mul_pyramidLength j
  have := Nat.pow_le_pow_right (show 0 < 4 by omega) h
  omega

theorem pyramidLevels?_pyramidLength {levels : Nat} (h : 1 ≤ levels) :
    pyramidLevels? (pyramidLength levels) = some levels := by
  unfold pyramidLevels?
  rw [three_mul_pyramidLength, log4?_four_pow]
  simp [h]

namespace Availability

/-! ## Checked rows -/

theorem misfit?_eq_none {rows : List Bitset} (h : Fits .pyramid rows) : misfit? rows = none := by
  unfold misfit?
  rw [Option.map_eq_none_iff, List.find?_eq_none]
  rintro ⟨row, i⟩ hmem
  obtain ⟨hi, rfl⟩ := List.getElem?_eq_some_iff.1 (List.mk_mem_zipIdx_iff_getElem?.1 hmem)
  simp [h i hi]

/-- Rows of a pyramid are taken if there are any and each has its length. -/
theorem ofRows_pyramid {rows : List Bitset} (hne : rows ≠ []) (h : Fits .pyramid rows) :
    ofRows rows .pyramid = .ok ⟨.pyramid, rows, h⟩ := by
  unfold ofRows
  dsimp only
  rw [if_neg (by simpa using hne)]
  split
  · next heq =>
    rw [misfit?_eq_none h] at heq
    contradiction
  · rfl

/-- A child row is taken if its length is a power of four. -/
theorem ofRows_children {row : Bitset} {n : Nat} (h : row.size = 4 ^ n) :
    ∃ a, ofRows [row] .children = .ok a ∧ a.topology = .children ∧ a.length = 4 ^ n ∧
      a.row 0 = row := by
  refine ⟨⟨.children, [row], row, n, rfl, h⟩, ?_, rfl, h, rfl⟩
  unfold ofRows
  dsimp only
  split
  · rfl
  · next heq =>
    rw [h, log4?_four_pow] at heq
    contradiction

/-! ## Lengths of rows -/

section Pyramid

variable {a b : Availability}

theorem row_eq_getElem {i : Nat} (hi : i < a.rows.length) : a.row i = a.rows[i] := by
  simp [row, hi]

theorem row_of_le {i : Nat} (hi : a.levelCount ≤ i) : a.row i = Bitset.empty 0 := by
  simp only [row, List.getD_eq_getElem?_getD, List.getElem?_eq_none hi, Option.getD_none]

theorem size_row (ht : a.topology = .pyramid) {i : Nat} (hi : i < a.levelCount) :
    (a.row i).size = 4 ^ i := by
  obtain ⟨t, rows, hfit⟩ := a
  cases ht
  rw [row_eq_getElem hi]
  exact hfit i hi

theorem length_pyramid (ht : a.topology = .pyramid) : a.length = pyramidLength a.levelCount := by
  unfold length levelCount
  rw [ht]

theorem rows_children (ht : a.topology = .children) : a.rows = [a.row 0] := by
  obtain ⟨t, rows, hfit⟩ := a
  cases ht
  obtain ⟨row, n, rfl, -⟩ := hfit
  rfl

theorem length_children (ht : a.topology = .children) : a.length = (a.row 0).size := by
  unfold length
  rw [ht]

theorem ext_rows (ht : a.topology = b.topology) (h : a.rows = b.rows) : a = b := by
  obtain ⟨t, rows, hfit⟩ := a
  obtain ⟨u, rows', hfit'⟩ := b
  cases ht
  cases h
  rfl

/-- Pyramids of one depth with the same bits are equal. -/
theorem ext_pyramid (ha : a.topology = .pyramid) (hb : b.topology = .pyramid)
    (hl : a.levelCount = b.levelCount)
    (h : ∀ i < a.levelCount, ∀ j < 4 ^ i, (a.row i).get j = (b.row i).get j) : a = b := by
  apply ext_rows (ha.trans hb.symm)
  apply List.ext_getElem hl
  intro i hi hi'
  rw [← row_eq_getElem hi, ← row_eq_getElem hi']
  apply Bitset.ext_get
  · rw [size_row ha hi, size_row hb hi']
  · intro j
    by_cases hj : j < 4 ^ i
    · exact h i hi j hj
    · rw [Bitset.get_of_le (by rw [size_row ha hi]; omega),
        Bitset.get_of_le (by rw [size_row hb hi']; omega)]

/-- Child rows of one length with the same bits are equal. -/
theorem ext_children (ha : a.topology = .children) (hb : b.topology = .children)
    (hl : a.length = b.length) (h : ∀ j < a.length, (a.row 0).get j = (b.row 0).get j) :
    a = b := by
  apply ext_rows (ha.trans hb.symm)
  rw [rows_children ha, rows_children hb]
  rw [length_children ha] at hl h
  rw [length_children hb] at hl
  congr 1
  apply Bitset.ext_get hl
  intro j
  by_cases hj : j < (a.row 0).size
  · exact h j hj
  · rw [Bitset.get_of_le (by omega), Bitset.get_of_le (by omega)]

end Pyramid

/-! ## The availability without any node -/

@[simp] theorem topology_empty (levels : Nat) (t : Topology) :
    (empty levels t).topology = t := by
  cases t <;> rfl

@[simp] theorem levelCount_empty_pyramid (levels : Nat) :
    (empty levels .pyramid).levelCount = levels := by
  simp [levelCount, empty]

@[simp] theorem get_row_empty (levels : Nat) (t : Topology) (i j : Nat) :
    ((empty levels t).row i).get j = false := by
  cases t with
  | pyramid =>
    by_cases hi : i < levels
    · simp [row, empty, hi]
    · simp [row, empty, hi]
  | children =>
    cases i <;> simp [row, empty]

end Availability

end ImplicitTiling
