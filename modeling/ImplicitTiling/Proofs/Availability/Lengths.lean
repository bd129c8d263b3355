import ImplicitTiling.Proofs.Availability.Rows
import ImplicitTiling.Proofs.Bitset.Members

/-!
# How many bits an availability can have

A pyramid of `L` levels has `(4 ^ L - 1) / 3` bits, a row of children `4 ^ k` of them (`HasLength`).
`pyramidLevels?` and `log4?` tell these lengths from others. On a machine word the same is told by
counting the bits that are set and by the place of the lowest one (`Word.log4?_eq`), after sums and
products that have to stay words (`Word.pyramidLevels?_eq`).
-/

namespace ImplicitTiling

/-- Whether a pyramid of some levels, or a row of children, has `n` bits. -/
def HasLength (n : Nat) : Topology → Prop
  | .pyramid => ∃ levels, 1 ≤ levels ∧ n = (4 ^ levels - 1) / 3
  | .children => ∃ depth, n = 4 ^ depth

theorem pyramidLevels?_eq_some_iff {n levels : Nat} :
    pyramidLevels? n = some levels ↔ 1 ≤ levels ∧ n = pyramidLength levels := by
  unfold pyramidLevels?
  rw [Option.filter_eq_some_iff, log4?_eq_some_iff, decide_eq_true_iff, and_comm]
  have h := three_mul_pyramidLength levels
  refine and_congr_right fun _ => ?_
  omega

namespace Word

/-! ## Words with one bit -/

theorem eq_single_iff {w : UInt64} {i : Nat} (hi : i < 64) : w = single i ↔ w.toNat = 2 ^ i := by
  rw [← toNat_single hi, UInt64.toNat_inj]

theorem filter_bit_eq_singleton_iff {w : UInt64} {i : Nat} :
    (List.range 64).filter (bit w) = [i] ↔ i < 64 ∧ w = single i := by
  constructor
  · intro h
    have hmem (j : Nat) : j < 64 ∧ bit w j = true ↔ j = i := by
      rw [← List.mem_range, ← List.mem_filter, h, List.mem_singleton]
    have hi : i < 64 := ((hmem i).2 rfl).1
    refine ⟨hi, ext fun j hj => ?_⟩
    rw [bit_single hi, Bool.eq_iff_iff, decide_eq_true_iff, ← hmem j]
    exact ⟨fun hbit => ⟨hj, hbit⟩, And.right⟩
  · rintro ⟨hi, rfl⟩
    have hbit : bit (single i) = fun j => j == i := by
      funext j
      rw [bit_single hi]
      rfl
    rw [hbit, List.filter_beq, List.nodup_range.count, if_pos (List.mem_range.2 hi)]
    rfl

theorem lowest_single {i : Nat} (hi : i < 64) : lowest (single i) = i := by
  rw [lowest, ← List.head?_filter, filter_bit_eq_singleton_iff.2 ⟨hi, rfl⟩]
  rfl

/-- A word counts one bit when it has that bit and no other. -/
theorem countFrom_eq_one_iff {w : UInt64} : countFrom 64 w = 1 ↔ ∃ i < 64, w = single i := by
  have hcount : countFrom 64 w = ((List.range 64).filter (bit w)).length := by
    rw [countFrom_eq 64 w 0, onesFrom_eq, List.length_map]
  rw [hcount, List.length_eq_one_iff]
  exact exists_congr fun i => filter_bit_eq_singleton_iff

/-! ## Lengths as words -/

/-- The product of two words, if it is a word. -/
def mul? (v w : UInt64) : Option UInt64 :=
  if v.toNat * w.toNat < 2 ^ 64 then some (v * w) else none

/-- The sum of two words, if it is a word. -/
def add? (v w : UInt64) : Option UInt64 :=
  if v.toNat + w.toNat < 2 ^ 64 then some (v + w) else none

/-- The number `k` with `4 ^ k = w`, if there is one: a single bit is set, at an even position. -/
def log4? (w : UInt64) : Option Nat :=
  if w = 0 ∨ countFrom 64 w ≠ 1 ∨ lowest w % 2 ≠ 0 then none else some (lowest w / 2)

/-- The number of levels of a pyramid of `w` bits, if some pyramid has that many and is not empty. -/
def pyramidLevels? (w : UInt64) : Option Nat := do
  let product ← mul? w 3
  let sum ← add? product 1
  (log4? sum).filter (1 ≤ ·)

theorem log4?_eq_some_iff {w : UInt64} {k : Nat} : log4? w = some k ↔ w.toNat = 4 ^ k := by
  have hfour (k : Nat) : 4 ^ k = 2 ^ (2 * k) := (Nat.pow_mul 2 2 k).symm
  unfold log4?
  constructor
  · intro h
    split at h
    · cases h
    · next hw =>
      cases h
      simp only [not_or, not_not] at hw
      obtain ⟨-, hcount, heven⟩ := hw
      obtain ⟨i, hi, rfl⟩ := countFrom_eq_one_iff.1 hcount
      rw [lowest_single hi] at heven ⊢
      rw [toNat_single hi, hfour, Nat.mul_div_cancel' (Nat.dvd_of_mod_eq_zero heven)]
  · intro h
    rw [hfour] at h
    have hk : 2 * k < 64 := (Nat.pow_lt_pow_iff_right (by decide)).1 (h ▸ w.toNat_lt)
    obtain rfl := (eq_single_iff hk).2 h
    have hcount : countFrom 64 (single (2 * k)) = 1 := countFrom_eq_one_iff.2 ⟨_, hk, rfl⟩
    have hne : single (2 * k) ≠ 0 := by
      intro h0
      rw [h0] at hcount
      cases hcount
    rw [lowest_single hk, if_neg (by simp [hne, hcount]), Nat.mul_div_cancel_left k (by decide)]

theorem log4?_eq (w : UInt64) : log4? w = ImplicitTiling.log4? w.toNat := by
  ext k
  rw [log4?_eq_some_iff, ImplicitTiling.log4?_eq_some_iff]

/-- On words a pyramid is told by its length wherever three times the length, and one, is a word. -/
theorem pyramidLevels?_eq {w : UInt64} (h : 3 * w.toNat + 1 < 2 ^ 64) :
    pyramidLevels? w = ImplicitTiling.pyramidLevels? w.toNat := by
  have hproduct : (w * 3).toNat = 3 * w.toNat := by
    rw [UInt64.toNat_mul, show (3 : UInt64).toNat = 3 from rfl, Nat.mul_comm]
    exact Nat.mod_eq_of_lt (by omega)
  have hmul : mul? w 3 = some (w * 3) := if_pos (by show w.toNat * 3 < _; omega)
  have hadd : add? (w * 3) 1 = some (w * 3 + 1) := if_pos (by rw [hproduct]; exact h)
  have hsum : (w * 3 + 1).toNat = 3 * w.toNat + 1 := by
    rw [UInt64.toNat_add, hproduct]
    exact Nat.mod_eq_of_lt h
  show ((mul? w 3).bind fun product => (add? product 1).bind fun sum =>
    (log4? sum).filter (1 ≤ ·)) = _
  rw [hmul, Option.bind_some, hadd, Option.bind_some, log4?_eq, hsum]
  rfl

end Word

end ImplicitTiling
