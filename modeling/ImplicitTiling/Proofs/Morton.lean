import ImplicitTiling.Morton

/-!
# Spreading and gathering bits

`bit_spread` and `bit_compact` say which bit goes where. Both functions respect the union of words,
and such a function is known from the words of a single bit (`OrLinear.bit_apply`), of which there
are few enough to check. An index of a level is found again from its coordinates
(`interleave_deinterleave`), which are those of a tile of the level (`deinterleave_lt`), and such
coordinates are found again from their index (`deinterleave_interleave`).
`interleave_inverse_deinterleave` puts this together.
-/

namespace ImplicitTiling.Morton

/-! ## Functions that respect unions -/

/-- The function respects the union of words. -/
structure OrLinear (f : UInt64 → UInt64) : Prop where
  zero : f 0 = 0
  or : ∀ v w, f (v ||| w) = f v ||| f w

namespace OrLinear

variable {f g : UInt64 → UInt64}

theorem comp (hg : OrLinear g) (hf : OrLinear f) : OrLinear fun w => g (f w) where
  zero := by rw [hf.zero, hg.zero]
  or v w := by rw [hf.or, hg.or]

theorem union (hf : OrLinear f) (hg : OrLinear g) : OrLinear fun w => f w ||| g w where
  zero := by
    rw [hf.zero, hg.zero]
    rfl
  or v w := by
    rw [hf.or, hg.or]
    apply Word.ext
    intro i hi
    simp only [Word.bit_or]
    cases Word.bit (f v) i <;> cases Word.bit (f w) i <;> cases Word.bit (g v) i <;> rfl

theorem id : OrLinear fun w => w where
  zero := rfl
  or _ _ := rfl

theorem and (mask : UInt64) : OrLinear fun w => w &&& mask where
  zero := UInt64.zero_and
  or v w := by
    apply Word.ext
    intro i hi
    simp only [Word.bit_or, Word.bit_and]
    cases Word.bit v i <;> cases Word.bit w i <;> cases Word.bit mask i <;> rfl

theorem shiftLeft (k : UInt64) : OrLinear fun w => w <<< k where
  zero := UInt64.zero_shiftLeft
  or _ _ := UInt64.shiftLeft_or

theorem shiftRight (k : UInt64) : OrLinear fun w => w >>> k where
  zero := UInt64.zero_shiftRight
  or _ _ := UInt64.shiftRight_or

theorem low : OrLinear fun w => w.toUInt32.toUInt64 where
  zero := rfl
  or v w := by rw [UInt64.toUInt32_or, UInt32.toUInt64_or]

/-- The union of the single bits of a word at the listed positions. -/
def gather (w : UInt64) (positions : List Nat) : UInt64 :=
  positions.foldr (fun k v => (if Word.bit w k then Word.single k else 0) ||| v) 0

theorem bit_gather (w : UInt64) {positions : List Nat} (h : ∀ k ∈ positions, k < 64) (i : Nat) :
    Word.bit (gather w positions) i = (decide (i ∈ positions) && Word.bit w i) := by
  induction positions with
  | nil => simp [gather]
  | cons k positions ih =>
    have hk := h k List.mem_cons_self
    have hrest := ih fun k' hk' => h k' (List.mem_cons_of_mem k hk')
    show Word.bit ((if Word.bit w k then Word.single k else 0) ||| gather w positions) i = _
    rw [Word.bit_or, hrest]
    by_cases hik : i = k
    · subst hik
      cases hw : Word.bit w i <;> simp [Word.bit_single hk]
    · have hsingle : Word.bit (if Word.bit w k then Word.single k else 0) i = false := by
        cases Word.bit w k <;> simp [Word.bit_single hk, hik]
      rw [hsingle, Bool.false_or]
      simp [hik]

theorem gather_range (w : UInt64) : gather w (List.range 64) = w := by
  apply Word.ext
  intro i hi
  rw [bit_gather w (fun k hk => List.mem_range.1 hk)]
  simp [hi]

/-- What such a function does follows from what it does to single bits. -/
theorem bit_apply (hf : OrLinear f) (w : UInt64) (i : Nat) : Word.bit (f w) i =
    (List.range 64).any fun k => Word.bit w k && Word.bit (f (Word.single k)) i := by
  have hgather (positions : List Nat) : Word.bit (f (gather w positions)) i =
      positions.any fun k => Word.bit w k && Word.bit (f (Word.single k)) i := by
    induction positions with
    | nil =>
      show Word.bit (f 0) i = false
      rw [hf.zero, Word.bit_zero]
    | cons k positions ih =>
      show Word.bit (f ((if Word.bit w k then Word.single k else 0) ||| gather w positions)) i = _
      rw [hf.or, Word.bit_or, ih, List.any_cons]
      cases Word.bit w k with
      | false =>
        show (Word.bit (f 0) i || _) = _
        rw [hf.zero, Word.bit_zero, Bool.false_and]
      | true => rfl
  rw [← hgather, gather_range]

end OrLinear

/-! ## Where the bits go -/

theorem orLinear_spread : OrLinear fun w => spread w.toUInt32 := by
  have hstep (k mask : UInt64) : OrLinear fun w => (w ||| w <<< k) &&& mask :=
    (OrLinear.and mask).comp (OrLinear.id.union (OrLinear.shiftLeft k))
  exact (hstep 1 _).comp ((hstep 2 _).comp ((hstep 4 _).comp
    ((hstep 8 _).comp ((hstep 16 _).comp OrLinear.low))))

theorem orLinear_compact : OrLinear fun w => (compact w).toUInt64 := by
  have hstep (k mask : UInt64) : OrLinear fun w => (w ||| w >>> k) &&& mask :=
    (OrLinear.and mask).comp (OrLinear.id.union (OrLinear.shiftRight k))
  exact OrLinear.low.comp ((hstep 16 _).comp ((hstep 8 _).comp ((hstep 4 _).comp
    ((hstep 2 _).comp ((hstep 1 _).comp (OrLinear.and _))))))

theorem any_range_eq {p : Nat → Bool} {n k : Nat} (h : ∀ j < n, p j = true → j = k) :
    (List.range n).any p = (decide (k < n) && p k) := by
  rw [Bool.eq_iff_iff, List.any_eq_true, Bool.and_eq_true, decide_eq_true_eq]
  constructor
  · rintro ⟨j, hj, hp⟩
    have hj := List.mem_range.1 hj
    obtain rfl := h j hj hp
    exact ⟨hj, hp⟩
  · rintro ⟨hk, hp⟩
    exact ⟨k, List.mem_range.2 hk, hp⟩

theorem bit_compact (w : UInt64) {i : Nat} (hi : i < 64) :
    Word.bit (compact w).toUInt64 i = (decide (i < 32) && Word.bit w (2 * i)) := by
  have hsingle : ∀ k < 64, ∀ i < 64,
      Word.bit (compact (Word.single k)).toUInt64 i = decide (k = 2 * i) := by decide +kernel
  rw [orLinear_compact.bit_apply w i, any_range_eq (k := 2 * i)]
  · by_cases h : i < 32
    · have h64 : 2 * i < 64 := by omega
      rw [hsingle _ h64 i hi]
      simp [h, h64]
    · have h64 : ¬ 2 * i < 64 := by omega
      simp [h, h64]
  · intro j hj hp
    rw [hsingle j hj i hi, Bool.and_eq_true, decide_eq_true_eq] at hp
    exact hp.2

/-- Bit `i` of the spread word is bit `i / 2` for even `i`. -/
theorem bit_spread (x : UInt32) {i : Nat} (hi : i < 64) :
    Word.bit (spread x) i = (decide (i % 2 = 0) && Word.bit x.toUInt64 (i / 2)) := by
  have hsingle : ∀ k < 64, ∀ i < 64,
      Word.bit (spread (Word.single k).toUInt32) i = decide (i = 2 * k) := by decide +kernel
  have hx : x.toUInt64.toUInt32 = x := UInt32.toUInt32_toUInt64 x
  rw [← hx, orLinear_spread.bit_apply x.toUInt64 i, any_range_eq (k := i / 2), hx]
  · have h64 : i / 2 < 64 := by omega
    have hiff : i = 2 * (i / 2) ↔ i % 2 = 0 := by omega
    rw [hsingle _ h64 i hi, decide_eq_decide.2 hiff, decide_eq_true h64, Bool.true_and,
      Bool.and_comm]
  · intro j hj hp
    rw [hsingle j hj i hi, Bool.and_eq_true, decide_eq_true_eq] at hp
    omega

/-- The even bits of an index are those of `x`, the odd ones those of `y`, as far as they are of the
level. -/
theorem bit_interleave (x y : UInt32) (level : Nat) {i : Nat} (hi : i < 64) :
    Word.bit (interleave x y level) i = (decide (i < 2 * level) &&
      Word.bit (if i % 2 = 0 then x else y).toUInt64 (i / 2)) := by
  have hshift : spread y <<< 1 = spread y <<< (1 : Nat).toUInt64 := rfl
  have hpred : i - 1 < 64 := by omega
  rw [interleave, Word.bit_and, Word.bit_lowMask, Word.bit_or, hshift,
    Word.bit_shiftLeft _ (by decide), bit_spread x hi, bit_spread y hpred, Bool.and_comm]
  by_cases heven : i % 2 = 0
  · rcases Nat.eq_zero_or_pos i with rfl | hpos
    · simp
    · have hodd : ¬ (i - 1) % 2 = 0 := by omega
      simp [heven, hodd, hi]
  · have hodd : (i - 1) % 2 = 0 := by omega
    have hpos : 1 ≤ i := by omega
    have hhalf : (i - 1) / 2 = i / 2 := by omega
    simp [heven, hodd, hi, hpos, hhalf]

/-! ## Indices and coordinates as numbers -/

theorem four_pow_eq (level : Nat) : 4 ^ level = 2 ^ (2 * level) := by
  rw [Nat.pow_mul]

theorem toNat_and_lowMask (w : UInt64) (n : Nat) :
    (w &&& Word.lowMask n).toNat = w.toNat % 2 ^ n := by
  apply Nat.eq_of_testBit_eq
  intro i
  rw [Nat.testBit_mod_two_pow, ← Word.bit_eq_testBit, ← Word.bit_eq_testBit, Word.bit_and,
    Word.bit_lowMask]
  by_cases hi : i < 64
  · rw [decide_eq_true hi, Bool.true_and, Bool.and_comm]
  · rw [Word.bit_of_ge (Nat.not_lt.1 hi), Bool.false_and, Bool.and_false]

theorem and_lowMask {w : UInt64} {n : Nat} (h : w.toNat < 2 ^ n) : w &&& Word.lowMask n = w := by
  apply UInt64.toNat_inj.1
  rw [toNat_and_lowMask, Nat.mod_eq_of_lt h]

theorem testBit_of_lt {m n i : Nat} (h : m < 2 ^ n) (hi : n ≤ i) : m.testBit i = false :=
  Nat.testBit_lt_two_pow (Nat.lt_of_lt_of_le h (Nat.pow_le_pow_right (by decide) hi))

/-- A number below `2 ^ n` has no other bits than the first `n`. -/
theorem decide_lt_and_testBit {m n : Nat} (h : m < 2 ^ n) (i : Nat) :
    (decide (i < n) && m.testBit i) = m.testBit i := by
  rw [← Nat.testBit_mod_two_pow, Nat.mod_eq_of_lt h]

theorem testBit_interleave (x y : UInt32) (level i : Nat) :
    (interleave x y level).toNat.testBit i =
      (decide (i < 2 * level) && (if i % 2 = 0 then x else y).toNat.testBit (i / 2)) := by
  rw [← Word.bit_eq_testBit]
  by_cases hi : i < 64
  · rw [bit_interleave x y level hi, Word.bit_eq_testBit, UInt32.toNat_toUInt64]
  · rw [Word.bit_of_ge (Nat.not_lt.1 hi), testBit_of_lt (UInt32.toNat_lt _) (by omega),
      Bool.and_false]

theorem testBit_compact (w : UInt64) (i : Nat) :
    (compact w).toNat.testBit i = w.toNat.testBit (2 * i) := by
  rw [← UInt32.toNat_toUInt64, ← Word.bit_eq_testBit, ← Word.bit_eq_testBit]
  by_cases hi : i < 32
  · rw [bit_compact w (by omega), decide_eq_true hi, Bool.true_and]
  · rw [Word.bit_eq_testBit, UInt32.toNat_toUInt64,
      testBit_of_lt (UInt32.toNat_lt _) (Nat.not_lt.1 hi), Word.bit_of_ge (by omega)]

/-- Bit `i` of the first coordinate is bit `2 i` of the index, as far as it is of the level. -/
theorem testBit_deinterleave_fst (index : UInt64) (level i : Nat) :
    (deinterleave index level).1.toNat.testBit i =
      (decide (i < level) && index.toNat.testBit (2 * i)) := by
  have hiff : 2 * i < 2 * level ↔ i < level := by omega
  show (compact (index &&& Word.lowMask (2 * level))).toNat.testBit i = _
  rw [testBit_compact, toNat_and_lowMask, Nat.testBit_mod_two_pow, decide_eq_decide.2 hiff]

theorem testBit_deinterleave_snd (index : UInt64) (level i : Nat) :
    (deinterleave index level).2.toNat.testBit i =
      (decide (i < level) && index.toNat.testBit (2 * i + 1)) := by
  have hiff : 2 * i + 1 < 2 * level ↔ i < level := by omega
  have hone : (1 : UInt64).toNat % 64 = 1 := rfl
  show (compact ((index &&& Word.lowMask (2 * level)) >>> 1)).toNat.testBit i = _
  rw [testBit_compact, UInt64.toNat_shiftRight, hone, Nat.testBit_shiftRight, Nat.add_comm,
    toNat_and_lowMask, Nat.testBit_mod_two_pow, decide_eq_decide.2 hiff]

/-! ## There and back -/

theorem interleave_lt (x y : UInt32) (level : Nat) : (interleave x y level).toNat < 4 ^ level := by
  rw [four_pow_eq]
  apply Nat.lt_pow_two_of_testBit
  intro i hi
  rw [testBit_interleave, decide_eq_false (Nat.not_lt.2 hi), Bool.false_and]

/-- Coordinates lie in the level, whatever the bits above it. -/
theorem deinterleave_lt (index : UInt64) (level : Nat) :
    (deinterleave index level).1.toNat < 2 ^ level ∧
      (deinterleave index level).2.toNat < 2 ^ level := by
  constructor
  · apply Nat.lt_pow_two_of_testBit
    intro i hi
    rw [testBit_deinterleave_fst, decide_eq_false (Nat.not_lt.2 hi), Bool.false_and]
  · apply Nat.lt_pow_two_of_testBit
    intro i hi
    rw [testBit_deinterleave_snd, decide_eq_false (Nat.not_lt.2 hi), Bool.false_and]

/-- Indices that agree on the bits of the level have the same coordinates. -/
theorem deinterleave_congr {index other : UInt64} {level : Nat}
    (h : other.toNat % 4 ^ level = index.toNat % 4 ^ level) :
    deinterleave other level = deinterleave index level := by
  have hmask : other &&& Word.lowMask (2 * level) = index &&& Word.lowMask (2 * level) := by
    apply UInt64.toNat_inj.1
    rw [toNat_and_lowMask, toNat_and_lowMask, ← four_pow_eq, h]
  unfold deinterleave
  rw [hmask]

/-- **An index of a level is that of its coordinates.** -/
theorem interleave_deinterleave {index : UInt64} {level : Nat} (h : index.toNat < 4 ^ level) :
    interleave (deinterleave index level).1 (deinterleave index level).2 level = index := by
  rw [four_pow_eq] at h
  apply UInt64.toNat_inj.1
  apply Nat.eq_of_testBit_eq
  intro i
  rw [testBit_interleave]
  by_cases hi : i < 2 * level
  · have hhalf : i / 2 < level := by omega
    rw [decide_eq_true hi, Bool.true_and]
    by_cases heven : i % 2 = 0
    · have hindex : 2 * (i / 2) = i := by omega
      rw [if_pos heven, testBit_deinterleave_fst, decide_eq_true hhalf, Bool.true_and, hindex]
    · have hindex : 2 * (i / 2) + 1 = i := by omega
      rw [if_neg heven, testBit_deinterleave_snd, decide_eq_true hhalf, Bool.true_and, hindex]
  · rw [decide_eq_false hi, Bool.false_and, testBit_of_lt h (Nat.not_lt.1 hi)]

section

variable {x y : UInt32} {level : Nat}

theorem testBit_interleave_even (y : UInt32) (hx : x.toNat < 2 ^ level) (i : Nat) :
    (interleave x y level).toNat.testBit (2 * i) = x.toNat.testBit i := by
  have hiff : 2 * i < 2 * level ↔ i < level := by omega
  rw [testBit_interleave, decide_eq_decide.2 hiff, Nat.mul_mod_right, if_pos rfl,
    Nat.mul_div_cancel_left _ Nat.two_pos, decide_lt_and_testBit hx]

theorem testBit_interleave_odd (x : UInt32) (hy : y.toNat < 2 ^ level) (i : Nat) :
    (interleave x y level).toNat.testBit (2 * i + 1) = y.toNat.testBit i := by
  have hiff : 2 * i + 1 < 2 * level ↔ i < level := by omega
  have hodd : ¬ (2 * i + 1) % 2 = 0 := by omega
  have hhalf : (2 * i + 1) / 2 = i := by omega
  rw [testBit_interleave, decide_eq_decide.2 hiff, if_neg hodd, hhalf, decide_lt_and_testBit hy]

/-- **The coordinates of a tile of a level are found again from its index.** -/
theorem deinterleave_interleave (hx : x.toNat < 2 ^ level) (hy : y.toNat < 2 ^ level) :
    deinterleave (interleave x y level) level = (x, y) := by
  apply Prod.ext
  · apply UInt32.toNat_inj.1
    apply Nat.eq_of_testBit_eq
    intro i
    rw [testBit_deinterleave_fst, testBit_interleave_even y hx, decide_lt_and_testBit hx]
  · apply UInt32.toNat_inj.1
    apply Nat.eq_of_testBit_eq
    intro i
    rw [testBit_deinterleave_snd, testBit_interleave_odd x hy, decide_lt_and_testBit hy]

end

/-- The coordinates of a level and its indices are one to one. The even bits of an index are those
of `x`, the odd ones those of `y`; bits above the level do not show in the coordinates. -/
theorem interleave_inverse_deinterleave (level : Nat) :
    (∀ x y : UInt32, x.toNat < 2 ^ level → y.toNat < 2 ^ level →
      (∀ i, (interleave x y level).toNat.testBit (2 * i) = x.toNat.testBit i ∧
        (interleave x y level).toNat.testBit (2 * i + 1) = y.toNat.testBit i) ∧
      (interleave x y level).toNat < 4 ^ level ∧
      deinterleave (interleave x y level) level = (x, y)) ∧
    ∀ index : UInt64,
      (∀ other : UInt64, other.toNat % 4 ^ level = index.toNat % 4 ^ level →
        deinterleave other level = deinterleave index level) ∧
      (deinterleave index level).1.toNat < 2 ^ level ∧
      (deinterleave index level).2.toNat < 2 ^ level ∧
      (index.toNat < 4 ^ level →
        interleave (deinterleave index level).1 (deinterleave index level).2 level = index) := by
  constructor
  · intro x y hx hy
    refine ⟨fun i => ⟨?_, ?_⟩, interleave_lt x y level, deinterleave_interleave hx hy⟩
    · exact testBit_interleave_even y hx i
    · exact testBit_interleave_odd x hy i
  · intro index
    obtain ⟨hx, hy⟩ := deinterleave_lt index level
    exact ⟨fun _ h => deinterleave_congr h, hx, hy, interleave_deinterleave⟩

/-- At the level that fills the word, with the last bit of both coordinates and of the index set. -/
theorem interleave_inverse_deinterleave_word :
    ((4294967295 : UInt32).toNat < 2 ^ 32 ∧ (2147483649 : UInt32).toNat < 2 ^ 32 ∧
      ((interleave 4294967295 2147483649 32).toNat.testBit 62 = true ∧
        (interleave 4294967295 2147483649 32).toNat.testBit 63 = true) ∧
      deinterleave (interleave 4294967295 2147483649 32) 32 = (4294967295, 2147483649)) ∧
    ((9223372036854775813 : UInt64).toNat < 4 ^ 32 ∧
      interleave (deinterleave 9223372036854775813 32).1 (deinterleave 9223372036854775813 32).2 32 =
        9223372036854775813) := by
  obtain ⟨hcoordinates, hindex⟩ := interleave_inverse_deinterleave 32
  obtain ⟨hbits, -, hback⟩ := hcoordinates 4294967295 2147483649 (by decide) (by decide)
  obtain ⟨-, -, -, hfound⟩ := hindex 9223372036854775813
  exact ⟨⟨by decide, by decide, hbits 31, hback⟩, by decide, hfound (by decide)⟩

end ImplicitTiling.Morton
