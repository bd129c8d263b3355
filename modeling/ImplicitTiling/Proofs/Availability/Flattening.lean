import ImplicitTiling.Proofs.Availability.Rows
import ImplicitTiling.Proofs.Bitset.Blocks

/-!
# All bits in one row

Flattening an availability puts the rows of a pyramid end to end, the root first, so that bit `j` of
level `i` is bit `pyramidLength i + j` (`get_toBitset_pyramid`). Splitting cuts the row at the same
places (`toBitset_of_slices`). The one row tells availabilities apart (`ext_toBitset`), and when no
bit and when every bit is set (`isEmpty_iff`, `isFull_iff`).
-/

namespace ImplicitTiling.Availability

variable {a : Availability}

/-! ## Flattening -/

theorem toBitset_pyramid (ht : a.topology = .pyramid) :
    a.toBitset = Bitset.layOut a.rows pyramidLength 0 (Bitset.empty a.length) := by
  unfold toBitset
  rw [ht]
  rfl

theorem toBitset_children (ht : a.topology = .children) : a.toBitset = a.row 0 := by
  unfold toBitset
  rw [ht]

@[simp] theorem size_toBitset (a : Availability) : a.toBitset.size = a.length := by
  cases ht : a.topology with
  | pyramid => rw [toBitset_pyramid ht, Bitset.size_layOut, Bitset.size_empty]
  | children => rw [toBitset_children ht, length_children ht]

/-- Bit `j` of level `i` stands behind the bits of all levels above. -/
theorem get_toBitset_pyramid (ht : a.topology = .pyramid) {i j : Nat} (hi : i < a.levelCount)
    (hj : j < 4 ^ i) : a.toBitset.get (pyramidLength i + j) = (a.row i).get j := by
  have hsize : ∀ q (h : q < a.rows.length), a.rows[q].size = 4 ^ q := by
    intro q h
    rw [← row_eq_getElem h, size_row ht h]
  have hlen : pyramidLength i + j < a.length := by
    have := pyramidLength_mono (show i + 1 ≤ a.levelCount from hi)
    rw [pyramidLength_succ] at this
    rw [length_pyramid ht]
    omega
  have hi' : i < a.rows.length := hi
  rw [toBitset_pyramid ht, row_eq_getElem hi']
  apply Bitset.get_layOut (fun _ _ h => pyramidLength_mono h) ?_ hi' (by rwa [hsize]) hlen
  intro q h
  rw [hsize q h, pyramidLength_succ]

theorem exists_level {levels k : Nat} (hk : k < pyramidLength levels) :
    ∃ i j, i < levels ∧ j < 4 ^ i ∧ k = pyramidLength i + j := by
  induction levels with
  | zero => exact absurd hk (Nat.not_lt_zero k)
  | succ levels ih =>
    by_cases h : k < pyramidLength levels
    · obtain ⟨i, j, hi, hj, rfl⟩ := ih h
      exact ⟨i, j, Nat.lt_succ_of_lt hi, hj, rfl⟩
    · rw [pyramidLength_succ] at hk
      exact ⟨levels, k - pyramidLength levels, Nat.lt_succ_self levels, by omega, by omega⟩

/-! ## None and all -/

theorem isEmpty_iff_rows : a.isEmpty = true ↔ ∀ i j, (a.row i).get j = false := by
  unfold isEmpty
  rw [List.all_eq_true]
  constructor
  · intro h i j
    by_cases hi : i < a.levelCount
    · rw [row_eq_getElem hi]
      exact Bitset.isClear_iff.1 (h _ (List.getElem_mem hi)) j
    · rw [row_of_le (Nat.not_lt.1 hi), Bitset.get_empty]
  · intro h row hrow
    obtain ⟨i, hi, rfl⟩ := List.mem_iff_getElem.1 hrow
    rw [Bitset.isClear_iff]
    intro j
    rw [← row_eq_getElem hi]
    exact h i j

/-- An availability is empty when all its bits in one row are clear. -/
theorem isEmpty_iff (a : Availability) : a.isEmpty = true ↔ ∀ k, a.toBitset.get k = false := by
  rw [isEmpty_iff_rows]
  cases ht : a.topology with
  | pyramid =>
    constructor
    · intro h k
      by_cases hk : k < a.length
      · rw [length_pyramid ht] at hk
        obtain ⟨i, j, hi, hj, rfl⟩ := exists_level hk
        rw [get_toBitset_pyramid ht hi hj, h]
      · rw [Bitset.get_of_le (by rw [size_toBitset]; omega)]
    · intro h i j
      by_cases hi : i < a.levelCount
      · by_cases hj : j < 4 ^ i
        · rw [← get_toBitset_pyramid ht hi hj, h]
        · rw [Bitset.get_of_le (by rw [size_row ht hi]; omega)]
      · rw [row_of_le (Nat.not_lt.1 hi), Bitset.get_empty]
  | children =>
    rw [toBitset_children ht]
    constructor
    · intro h
      exact h 0
    · intro h i j
      cases i with
      | zero => exact h j
      | succ i =>
        have hle : a.levelCount ≤ i + 1 := by
          rw [levelCount, rows_children ht]
          exact Nat.succ_le_succ (Nat.zero_le i)
        rw [row_of_le hle, Bitset.get_empty]

theorem range_pyramidLength (levels : Nat) :
    List.range (pyramidLength levels) =
      (List.range levels).flatMap fun i => (List.range (4 ^ i)).map (pyramidLength i + ·) := by
  induction levels with
  | zero => rfl
  | succ levels ih =>
    rw [pyramidLength_succ, List.range_add, ih, List.range_succ, List.flatMap_append,
      List.flatMap_singleton]

theorem rows_eq_map_row (a : Availability) : a.rows = (List.range a.levelCount).map a.row := by
  apply List.ext_getElem
  · simp [levelCount]
  · intro i hi hi'
    rw [List.getElem_map, List.getElem_range, row_eq_getElem hi]

theorem cardinality_eq_count (a : Availability) : a.cardinality = a.toBitset.count := by
  show (a.rows.map Bitset.count).sum = _
  cases ht : a.topology with
  | pyramid =>
    have hrow : ∀ i ∈ List.range a.levelCount, (Bitset.count ∘ a.row) i =
        (List.countP a.toBitset.get ∘ fun i => (List.range (4 ^ i)).map (pyramidLength i + ·)) i := by
      intro i hi
      have hi' := List.mem_range.1 hi
      show (a.row i).count = List.countP _ _
      rw [Bitset.count_eq_countP, size_row ht hi', List.countP_map]
      apply List.countP_congr
      intro j hj
      rw [Function.comp_apply, get_toBitset_pyramid ht hi' (List.mem_range.1 hj)]
    rw [rows_eq_map_row, List.map_map, List.map_congr_left hrow, Bitset.count_eq_countP,
      size_toBitset, length_pyramid ht, range_pyramidLength, List.countP_flatMap]
  | children => simp [rows_children ht, toBitset_children ht]

/-- An availability is full when all its bits in one row are set. -/
theorem isFull_iff (a : Availability) :
    a.isFull = true ↔ ∀ k < a.length, a.toBitset.get k = true := by
  rw [← size_toBitset, ← Bitset.isFull_iff]
  unfold isFull Bitset.isFull
  rw [cardinality_eq_count, size_toBitset]

/-! ## Splitting -/

/-- A pyramid cut from one row: level `i` shows bits `pyramidLength i` to `pyramidLength (i + 1)`. -/
theorem ofBitset_pyramid (bits : Bitset) {levels : Nat} (h1 : 1 ≤ levels)
    (hsize : bits.size = pyramidLength levels) :
    ∃ a, ofBitset bits (pyramidLength levels) .pyramid = .ok a ∧ a.topology = .pyramid ∧
      a.levelCount = levels ∧
      ∀ i < levels, a.row i = bits.slice (pyramidLength i) (pyramidLength (i + 1)) := by
  have hfit : Fits .pyramid ((List.range levels).map fun i =>
      bits.slice (pyramidLength i) (pyramidLength (i + 1))) := by
    intro i hi
    rw [List.getElem_map, List.getElem_range, Bitset.size_slice, pyramidLength_succ,
      Nat.add_sub_cancel_left]
  have hne : ((List.range levels).map fun i =>
      bits.slice (pyramidLength i) (pyramidLength (i + 1))) ≠ [] := by
    simp only [ne_eq, List.map_eq_nil_iff, List.range_eq_nil]
    omega
  refine ⟨⟨.pyramid, _, hfit⟩, ?_, rfl, ?_, ?_⟩
  · unfold ofBitset
    rw [if_neg (not_not_intro hsize)]
    dsimp only
    rw [pyramidLevels?_pyramidLength h1]
    exact ofRows_pyramid hne hfit
  · simp [levelCount]
  · intro i hi
    simp [row, hi]

theorem ofBitset_children (bits : Bitset) {levels : Nat} (hsize : bits.size = 4 ^ levels) :
    ∃ a, ofBitset bits (4 ^ levels) .children = .ok a ∧ a.topology = .children ∧
      a.length = 4 ^ levels ∧ a.row 0 = bits := by
  unfold ofBitset
  rw [if_neg (not_not_intro hsize)]
  exact ofRows_children hsize

theorem toBitset_of_slices {a : Availability} {bits : Bitset} (ht : a.topology = .pyramid)
    (hsize : bits.size = pyramidLength a.levelCount)
    (h : ∀ i < a.levelCount, a.row i = bits.slice (pyramidLength i) (pyramidLength (i + 1))) :
    a.toBitset = bits := by
  apply Bitset.ext_get
  · rw [size_toBitset, length_pyramid ht, hsize]
  · intro k
    by_cases hk : k < pyramidLength a.levelCount
    · obtain ⟨i, j, hi, hj, rfl⟩ := exists_level hk
      have hlt : j < pyramidLength (i + 1) - pyramidLength i := by
        rw [pyramidLength_succ]
        omega
      rw [get_toBitset_pyramid ht hi hj, h i hi, Bitset.get_slice, decide_eq_true hlt,
        Bool.true_and]
    · rw [Bitset.get_of_le (by rw [size_toBitset, length_pyramid ht]; omega),
        Bitset.get_of_le (by omega)]

theorem pyramidLength_injective {i j : Nat} (h : pyramidLength i = pyramidLength j) : i = j := by
  have hi := three_mul_pyramidLength i
  have hj := three_mul_pyramidLength j
  have hpow : 4 ^ i = 4 ^ j := by omega
  exact Nat.pow_right_injective (by decide : 2 ≤ 4) hpow

theorem levelCount_of_length {levels : Nat} (ht : a.topology = .pyramid)
    (hl : a.length = pyramidLength levels) : a.levelCount = levels :=
  pyramidLength_injective ((length_pyramid ht).symm.trans hl)

/-- Availabilities with the same bits in one row are equal. -/
theorem ext_toBitset {b : Availability} (ht : a.topology = b.topology)
    (h : a.toBitset = b.toBitset) : a = b := by
  have hlen : a.length = b.length := by rw [← size_toBitset, ← size_toBitset, h]
  cases hb : b.topology with
  | pyramid =>
    have ha := ht.trans hb
    have hl : a.levelCount = b.levelCount :=
      levelCount_of_length ha (hlen.trans (length_pyramid hb))
    apply ext_pyramid ha hb hl
    intro i hi j hj
    rw [← get_toBitset_pyramid ha hi hj, ← get_toBitset_pyramid hb (hl ▸ hi) hj, h]
  | children =>
    have ha := ht.trans hb
    apply ext_children ha hb hlen
    intro j hj
    rw [← toBitset_children ha, ← toBitset_children hb, h]

end ImplicitTiling.Availability
