import ImplicitTiling.Instances

/-!
# Bits of 64-bit words

Bits are numbered from the low end. Every operation on words that the library uses is described
here by what it does to single bits, so that later modules argue about positions and never about
word arithmetic.
-/

namespace ImplicitTiling.Word

/-- Bit `i` of a word; positions past the word are clear. -/
def bit (w : UInt64) (i : Nat) : Bool :=
  decide (i < 64) && (w >>> i.toUInt64) &&& 1 == 1

/-- The word whose low `n` bits are set. -/
def lowMask (n : Nat) : UInt64 :=
  if 64 ≤ n then 0xffffffffffffffff else (1 <<< n.toUInt64) - 1

/-- The word whose only bit is bit `k`, for `k < 64`. -/
def single (k : Nat) : UInt64 :=
  1 <<< k.toUInt64

/-- The positions set in the low `n` bits of a word, each raised by `base`, in ascending order. -/
def onesFrom : Nat → UInt64 → Nat → List Nat
  | 0, _, _ => []
  | n + 1, w, base =>
    if w == 0 then []
    else if w &&& 1 == 1 then base :: onesFrom n (w >>> 1) (base + 1)
    else onesFrom n (w >>> 1) (base + 1)

/-- How many of the low `n` bits of a word are set. -/
def countFrom : Nat → UInt64 → Nat
  | 0, _ => 0
  | n + 1, w =>
    if w == 0 then 0
    else if w &&& 1 == 1 then countFrom n (w >>> 1) + 1
    else countFrom n (w >>> 1)

/-! ## Single bits -/

theorem bit_eq_testBit (w : UInt64) (i : Nat) : bit w i = w.toNat.testBit i := by
  unfold bit
  by_cases hi : i < 64
  · have hs : i.toUInt64.toNat % 64 = i := by
      have : i.toUInt64.toNat = i := Nat.mod_eq_of_lt (by omega)
      omega
    simp only [hi, decide_true, Bool.true_and]
    rw [Bool.eq_iff_iff, beq_iff_eq, ← UInt64.toNat_inj, UInt64.toNat_and,
      UInt64.toNat_shiftRight, hs, Nat.testBit_eq_decide_div_mod_eq, decide_eq_true_iff,
      Nat.shiftRight_eq_div_pow]
    have : (1 : UInt64).toNat = 1 := rfl
    rw [this, Nat.and_one_is_mod]
  · have hlt : w.toNat < 2 ^ i :=
      Nat.lt_of_lt_of_le w.toNat_lt (Nat.pow_le_pow_right (by omega) (by omega))
    simp [hi, Nat.testBit_lt_two_pow hlt]

theorem bit_of_ge {w : UInt64} {i : Nat} (h : 64 ≤ i) : bit w i = false := by
  simp [bit, Nat.not_lt.2 h]

/-- Words with the same bits are equal. -/
theorem ext {v w : UInt64} (h : ∀ i, i < 64 → bit v i = bit w i) : v = w := by
  apply UInt64.toNat_inj.1
  apply Nat.eq_of_testBit_eq
  intro i
  rw [← bit_eq_testBit, ← bit_eq_testBit]
  by_cases hi : i < 64
  · exact h i hi
  · rw [bit_of_ge (Nat.not_lt.1 hi), bit_of_ge (Nat.not_lt.1 hi)]

@[simp] theorem bit_zero (i : Nat) : bit 0 i = false := by
  simp [bit_eq_testBit]

@[simp] theorem bit_or (v w : UInt64) (i : Nat) : bit (v ||| w) i = (bit v i || bit w i) := by
  simp [bit_eq_testBit]

@[simp] theorem bit_and (v w : UInt64) (i : Nat) : bit (v &&& w) i = (bit v i && bit w i) := by
  simp [bit_eq_testBit]

theorem bit_shiftLeft (w : UInt64) {k : Nat} (hk : k < 64) (i : Nat) :
    bit (w <<< k.toUInt64) i = (decide (i < 64) && decide (k ≤ i) && bit w (i - k)) := by
  have hs : k.toUInt64.toNat % 64 = k := by
    have : k.toUInt64.toNat = k := Nat.mod_eq_of_lt (by omega)
    omega
  simp only [bit_eq_testBit, UInt64.toNat_shiftLeft, hs, Nat.testBit_mod_two_pow,
    Nat.testBit_shiftLeft, ge_iff_le]
  rw [Bool.and_assoc]

theorem bit_shiftRight (w : UInt64) {k : Nat} (hk : k < 64) (i : Nat) :
    bit (w >>> k.toUInt64) i = bit w (k + i) := by
  have hs : k.toUInt64.toNat % 64 = k := by
    have : k.toUInt64.toNat = k := Nat.mod_eq_of_lt (by omega)
    omega
  simp only [bit_eq_testBit, UInt64.toNat_shiftRight, hs, Nat.testBit_shiftRight]

theorem toNat_single {k : Nat} (hk : k < 64) : (single k).toNat = 2 ^ k := by
  have hs : k.toUInt64.toNat = k := Nat.mod_eq_of_lt (by omega)
  have hp : 2 ^ k < 2 ^ 64 := Nat.pow_lt_pow_right (by decide) hk
  rw [single, UInt64.toNat_shiftLeft, hs, Nat.mod_eq_of_lt hk, UInt64.toNat_one, Nat.one_shiftLeft,
    Nat.mod_eq_of_lt hp]

theorem toNat_lowMask (n : Nat) : (lowMask n).toNat = 2 ^ min n 64 - 1 := by
  unfold lowMask
  by_cases h : 64 ≤ n
  · rw [if_pos h, Nat.min_eq_right h]
    rfl
  · have h1 : ((1 : UInt64) <<< n.toUInt64).toNat = 2 ^ n := toNat_single (Nat.not_le.1 h)
    have hle : (1 : UInt64) ≤ (1 : UInt64) <<< n.toUInt64 := by
      rw [UInt64.le_iff_toNat_le, h1]
      exact Nat.one_le_two_pow
    rw [if_neg h, UInt64.toNat_sub_of_le _ _ hle, h1, Nat.min_eq_left (by omega)]
    rfl

@[simp] theorem bit_lowMask (n i : Nat) :
    bit (lowMask n) i = (decide (i < 64) && decide (i < n)) := by
  rw [bit_eq_testBit, toNat_lowMask, Nat.testBit_two_pow_sub_one]
  rw [Bool.eq_iff_iff, decide_eq_true_iff, Bool.and_eq_true, decide_eq_true_iff,
    decide_eq_true_iff]
  omega

theorem bit_single {k : Nat} (hk : k < 64) (i : Nat) : bit (single k) i = decide (i = k) := by
  have h1 : ∀ j, bit 1 j = decide (j = 0) := by
    intro j
    rw [bit_eq_testBit]
    show Nat.testBit 1 j = _
    rw [← Nat.pow_zero 2, Nat.testBit_two_pow, Bool.eq_iff_iff]
    simp only [decide_eq_true_iff]
    omega
  rw [single, bit_shiftLeft 1 hk, h1, Bool.eq_iff_iff]
  simp only [Bool.and_eq_true, decide_eq_true_iff]
  omega

theorem bit_not (w : UInt64) (i : Nat) : bit (~~~w) i = (decide (i < 64) && !bit w i) := by
  by_cases hi : i < 64
  · rw [bit_eq_testBit, bit_eq_testBit, ← UInt64.toNat_toBitVec, ← UInt64.toNat_toBitVec,
      UInt64.toBitVec_not, BitVec.testBit_toNat, BitVec.testBit_toNat, BitVec.getLsbD_not]
  · simp [bit_of_ge (Nat.not_lt.1 hi), hi]

end ImplicitTiling.Word
