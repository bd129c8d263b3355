import ImplicitTiling.Proofs.Bitset.Members
import Mathlib.Algebra.GroupWithZero.Nat
import Mathlib.Order.Monotone.Basic

/-!
# Bit sets laid end to end

`layOut rows offset b` adds to `b` every row of a list, row `q` raised by `offset q`. Where the rows
do not overlap, each block reads as its own row (`get_layOut`). A set that consists of blocks has as
many members as they have together (`count_of_blocks`).
-/

namespace ImplicitTiling.Bitset

/-- Adds to `b` the rows of a list, row `q` raised by `offset q`, counting rows from `k`. -/
def layOut (rows : List Bitset) (offset : Nat → Nat) (k : Nat) (b : Bitset) : Bitset :=
  (rows.zipIdx k).foldl (fun bits (row, q) => bits.copyFrom row (offset q)) b

variable {rows : List Bitset} {offset : Nat → Nat} {b : Bitset}

theorem layOut_cons (row : Bitset) (k : Nat) :
    layOut (row :: rows) offset k b = layOut rows offset (k + 1) (b.copyFrom row (offset k)) :=
  rfl

@[simp] theorem size_layOut (k : Nat) : (layOut rows offset k b).size = b.size := by
  induction rows generalizing k b with
  | nil => rfl
  | cons row rows ih => rw [layOut_cons, ih, size_copyFrom]

theorem get_layOut_iff (k i : Nat) :
    (layOut rows offset k b).get i = true ↔ i < b.size ∧ (b.get i = true ∨
      ∃ q, ∃ h : q < rows.length, offset (k + q) ≤ i ∧ rows[q].get (i - offset (k + q)) = true) := by
  induction rows generalizing k b with
  | nil =>
    constructor
    · intro h
      exact ⟨get_lt h, Or.inl h⟩
    · rintro ⟨-, h | ⟨q, hq, -⟩⟩
      · exact h
      · exact absurd hq (Nat.not_lt_zero q)
  | cons row rows ih =>
    rw [layOut_cons, ih, size_copyFrom, get_copyFrom]
    simp only [Bool.and_eq_true, Bool.or_eq_true, decide_eq_true_eq]
    constructor
    · rintro ⟨hi, ⟨-, h | ⟨ho, h⟩⟩ | ⟨q, hq, ho, h⟩⟩
      · exact ⟨hi, Or.inl h⟩
      · exact ⟨hi, Or.inr ⟨0, Nat.succ_pos _, ho, h⟩⟩
      · refine ⟨hi, Or.inr ⟨q + 1, Nat.succ_lt_succ hq, ?_, ?_⟩⟩
        · rwa [← Nat.add_assoc, Nat.add_right_comm]
        · rw [← Nat.add_assoc, Nat.add_right_comm]
          exact h
    · rintro ⟨hi, h | ⟨q, hq, ho, h⟩⟩
      · exact ⟨hi, Or.inl ⟨hi, Or.inl h⟩⟩
      · cases q with
        | zero => exact ⟨hi, Or.inl ⟨hi, Or.inr ⟨ho, h⟩⟩⟩
        | succ q =>
          rw [← Nat.add_assoc, Nat.add_right_comm] at ho h
          exact ⟨hi, Or.inr ⟨q, Nat.lt_of_succ_lt_succ hq, ho, h⟩⟩

/-- Rows that do not overlap are read back block by block. -/
theorem get_layOut {n : Nat} (hmono : Monotone offset)
    (hfit : ∀ q (h : q < rows.length), offset q + rows[q].size ≤ offset (q + 1))
    {q : Nat} (hq : q < rows.length) {j : Nat} (hj : j < rows[q].size) (hn : offset q + j < n) :
    (layOut rows offset 0 (empty n)).get (offset q + j) = rows[q].get j := by
  rw [Bool.eq_iff_iff, get_layOut_iff]
  simp only [size_empty, get_empty, Bool.false_eq_true, false_or, Nat.zero_add]
  constructor
  · rintro ⟨-, p, hp, ho, h⟩
    have hlt := get_lt h
    have hpq : p = q := by
      rcases Nat.lt_trichotomy p q with hlt' | heq | hgt
      · have h1 := hmono (show p + 1 ≤ q from hlt')
        have h2 := hfit p hp
        omega
      · exact heq
      · have h1 := hmono (show q + 1 ≤ p from hgt)
        have h2 := hfit q hq
        omega
    subst hpq
    rwa [Nat.add_sub_cancel_left] at h
  · intro h
    refine ⟨hn, q, hq, Nat.le_add_right _ _, ?_⟩
    rwa [Nat.add_sub_cancel_left]

/-- The members of a set that consists of blocks are those of the blocks. -/
theorem count_of_blocks {rows : List Bitset} {b : Bitset} {n : Nat}
    (hb : b.size = rows.length * n) (hsize : ∀ row ∈ rows, row.size = n)
    (h : ∀ q (hq : q < rows.length), ∀ j < n, b.get (q * n + j) = rows[q].get j) :
    b.count = (rows.map count).sum := by
  rw [count_eq_countP, hb, range_mul_eq_flatMap, List.countP_flatMap]
  congr 1
  apply List.ext_getElem
  · simp
  · intro q hq hq'
    have hq : q < rows.length := by simpa using hq
    rw [List.getElem_map, List.getElem_map, List.getElem_range, Function.comp_apply,
      List.countP_map, count_eq_countP, hsize _ (List.getElem_mem hq)]
    apply List.countP_congr
    intro j hj
    rw [Function.comp_apply, Nat.mul_comm, h q hq j (List.mem_range.1 hj)]

end ImplicitTiling.Bitset
