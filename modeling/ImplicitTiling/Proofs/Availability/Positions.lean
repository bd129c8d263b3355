import ImplicitTiling.Proofs.Availability.Flattening
import Mathlib.Algebra.GroupWithZero.Nat

/-!
# The bits of an availability, level by level

A bit is named by its level and its place in the level. Flattened, the levels follow each other, the
root first: bit `j` of level `i` stands behind the bits of the levels above it (`get_toBitset`), and
there is no other position (`exists_bit`). So an availability is uniform, all of its bits set or none
of them, exactly when its one row is (`uniform_iff`), and the set bits of all levels are those of the
one row (`count_toBitset`).
-/

namespace ImplicitTiling.Availability

/-- How many bits the levels above level `i` have. -/
def bitsAbove (a : Availability) (i : Nat) : Nat :=
  ((a.rows.take i).map Bitset.size).sum

/-- All bits of all levels have the value `v`. -/
def Uniform (a : Availability) (v : Bool) : Prop :=
  ∀ i < a.levelCount, ∀ j < (a.row i).size, (a.row i).get j = v

/-- Some bits are set and some are not. -/
def Mixed (a : Availability) : Prop :=
  ¬ a.Uniform false ∧ ¬ a.Uniform true

instance (a : Availability) (v : Bool) : Decidable (a.Uniform v) :=
  inferInstanceAs (Decidable (∀ i < a.levelCount, ∀ j < (a.row i).size, (a.row i).get j = v))

instance (a : Availability) : Decidable a.Mixed :=
  inferInstanceAs (Decidable (¬ a.Uniform false ∧ ¬ a.Uniform true))

/-- How many bits of all levels are set. -/
def setCount (a : Availability) : Nat :=
  ((List.range a.levelCount).map fun i => (List.range (a.row i).size).countP (a.row i).get).sum

variable {a : Availability}

theorem bitsAbove_pyramid (ht : a.topology = .pyramid) {i : Nat} (hi : i ≤ a.levelCount) :
    a.bitsAbove i = pyramidLength i := by
  induction i with
  | zero => rfl
  | succ i ih =>
    have hlt : i < a.rows.length := hi
    have hrow : (a.rows.take (i + 1)).map Bitset.size =
        (a.rows.take i).map Bitset.size ++ [(a.row i).size] := by
      rw [List.take_succ_eq_append_getElem hlt, List.map_append, row_eq_getElem hlt]
      rfl
    have hih : a.bitsAbove i = pyramidLength i := ih (Nat.le_of_succ_le hi)
    rw [bitsAbove, hrow, List.sum_append, List.sum_singleton, size_row ht hlt, pyramidLength_succ,
      ← hih]
    rfl

theorem levelCount_children (ht : a.topology = .children) : a.levelCount = 1 := by
  rw [levelCount, rows_children ht]
  rfl

/-- Bit `j` of level `i` stands behind the bits of the levels above. -/
theorem get_toBitset {i j : Nat} (hi : i < a.levelCount) (hj : j < (a.row i).size) :
    a.toBitset.get (a.bitsAbove i + j) = (a.row i).get j := by
  cases ht : a.topology with
  | pyramid =>
    rw [size_row ht hi] at hj
    rw [bitsAbove_pyramid ht (Nat.le_of_lt hi), get_toBitset_pyramid ht hi hj]
  | children =>
    rw [levelCount_children ht, Nat.lt_one_iff] at hi
    subst hi
    rw [toBitset_children ht]
    exact congrArg (a.row 0).get (Nat.zero_add j)

theorem bitsAbove_add_lt {i j : Nat} (hi : i < a.levelCount) (hj : j < (a.row i).size) :
    a.bitsAbove i + j < a.length := by
  cases ht : a.topology with
  | pyramid =>
    have hmono := pyramidLength_mono (show i + 1 ≤ a.levelCount from hi)
    rw [pyramidLength_succ] at hmono
    rw [size_row ht hi] at hj
    rw [bitsAbove_pyramid ht (Nat.le_of_lt hi), length_pyramid ht]
    omega
  | children =>
    rw [levelCount_children ht, Nat.lt_one_iff] at hi
    subst hi
    rw [length_children ht, show a.bitsAbove 0 + j = j from Nat.zero_add j]
    exact hj

/-- Every position of the one row belongs to one level. -/
theorem exists_bit {k : Nat} (hk : k < a.length) :
    ∃ i j, i < a.levelCount ∧ j < (a.row i).size ∧ k = a.bitsAbove i + j := by
  cases ht : a.topology with
  | pyramid =>
    rw [length_pyramid ht] at hk
    obtain ⟨i, j, hi, hj, rfl⟩ := exists_level hk
    exact ⟨i, j, hi, by rwa [size_row ht hi], by rw [bitsAbove_pyramid ht (Nat.le_of_lt hi)]⟩
  | children =>
    rw [length_children ht] at hk
    exact ⟨0, k, by rw [levelCount_children ht]; exact Nat.one_pos, hk, (Nat.zero_add k).symm⟩

/-- A pyramid whose bits are the first ones of another is the top of it. -/
theorem rows_eq_take {b : Availability} (ha : a.topology = .pyramid)
    (hb : b.topology = .pyramid) (hle : a.levelCount ≤ b.levelCount)
    (h : ∀ k < a.length, a.toBitset.get k = b.toBitset.get k) :
    a.rows = b.rows.take a.levelCount := by
  apply List.ext_getElem
  · rw [List.length_take]
    exact (Nat.min_eq_left hle).symm
  · intro i hi hi'
    have hib : i < b.rows.length := Nat.lt_of_lt_of_le hi hle
    rw [List.getElem_take, ← row_eq_getElem hi, ← row_eq_getElem hib]
    apply Bitset.ext_get
    · rw [size_row ha hi, size_row hb hib]
    · intro j
      by_cases hj : j < 4 ^ i
      · have hlt := bitsAbove_add_lt hi (j := j) (by rwa [size_row ha hi])
        rw [bitsAbove_pyramid ha (Nat.le_of_lt hi)] at hlt
        rw [← get_toBitset_pyramid ha hi hj, ← get_toBitset_pyramid hb hib hj, h _ hlt]
      · rw [Bitset.get_of_le (by rw [size_row ha hi]; omega),
          Bitset.get_of_le (by rw [size_row hb hib]; omega)]

/-! ## None, all and how many -/

theorem uniform_pyramid_iff (ht : a.topology = .pyramid) {v : Bool} :
    a.Uniform v ↔ ∀ i < a.levelCount, ∀ j < 4 ^ i, (a.row i).get j = v := by
  refine forall₂_congr fun i hi => ?_
  rw [size_row ht hi]

theorem uniform_children_iff (ht : a.topology = .children) {v : Bool} :
    a.Uniform v ↔ ∀ j < a.length, (a.row 0).get j = v := by
  unfold Uniform
  rw [levelCount_children ht, length_children ht]
  exact ⟨fun h => h 0 Nat.one_pos, fun h i hi => Nat.lt_one_iff.1 hi ▸ h⟩

theorem uniform_iff {v : Bool} : a.Uniform v ↔ ∀ k < a.length, a.toBitset.get k = v := by
  constructor
  · intro h k hk
    obtain ⟨i, j, hi, hj, rfl⟩ := exists_bit hk
    rw [get_toBitset hi hj, h i hi j hj]
  · intro h i hi j hj
    rw [← get_toBitset hi hj, h _ (bitsAbove_add_lt hi hj)]

theorem isEmpty_iff_uniform : a.isEmpty = true ↔ a.Uniform false := by
  rw [isEmpty_iff, uniform_iff]
  constructor
  · exact fun h k _ => h k
  · intro h k
    by_cases hk : k < a.length
    · exact h k hk
    · exact Bitset.get_of_le (by rw [size_toBitset]; omega)

theorem isFull_iff_uniform : a.isFull = true ↔ a.Uniform true := by
  rw [isFull_iff, uniform_iff]

/-- An availability that has a bit is not uniform both ways. -/
theorem Uniform.eq {v w : Bool} (h : 0 < a.length) (hv : a.Uniform v) (hw : a.Uniform w) :
    v = w :=
  (uniform_iff.1 hv 0 h).symm.trans (uniform_iff.1 hw 0 h)

theorem exists_uniform_iff : (∃ v, a.Uniform v) ↔ ¬ a.Mixed := by
  constructor
  · rintro ⟨v, hv⟩ hmixed
    cases v with
    | false => exact hmixed.1 hv
    | true => exact hmixed.2 hv
  · intro h
    by_cases hfalse : a.Uniform false
    · exact ⟨false, hfalse⟩
    · exact ⟨true, not_not.1 fun htrue => h ⟨hfalse, htrue⟩⟩

theorem Mixed.two_le_length (h : a.Mixed) : 2 ≤ a.length := by
  by_contra hlt
  refine exists_uniform_iff.1 ⟨a.toBitset.get 0, uniform_iff.2 fun k hk => ?_⟩ h
  obtain rfl : k = 0 := by omega
  rfl

/-- The set bits of all levels are those of the one row. -/
theorem count_toBitset (a : Availability) : a.toBitset.count = a.setCount := by
  have hcount : Bitset.count ∘ a.row = fun i => (List.range (a.row i).size).countP (a.row i).get :=
    funext fun i => (a.row i).count_eq_countP
  calc a.toBitset.count = a.cardinality := a.cardinality_eq_count.symm
    _ = (a.rows.map Bitset.count).sum := rfl
    _ = a.setCount := by rw [rows_eq_map_row, List.map_map, hcount, setCount]

end ImplicitTiling.Availability
