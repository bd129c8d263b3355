import ImplicitTiling.Json.Reader
import Mathlib.Tactic.Ring

/-!
# Numerals read back

`readNumeral?_octets`: the text of a well-formed numeral, in front of anything that cannot go on
with a number, is read as that numeral. The digits that spell a natural number have it as their
value, so whole numbers survive as well (`toNat?_ofNat`).
-/

namespace ImplicitTiling

namespace Digit

@[simp] theorem ofOctet?_octet (d : Digit) : ofOctet? d.octet = some d := by
  revert d
  decide

/-- A digit is not a minus sign. -/
theorem octet_ne_minus (d : Digit) : d.octet ≠ 45 := by
  revert d
  decide

/-! ## Spelling a natural number -/

theorem foldl_value (ds : List Digit) (n : Nat) :
    ds.foldl (fun n d => 10 * n + d.val) n = 10 ^ ds.length * n + value ds := by
  induction ds generalizing n with
  | nil => simp [value]
  | cons d ds ih =>
    unfold value
    rw [List.foldl_cons, List.foldl_cons, ih, ih (10 * 0 + d.val), List.length_cons, Nat.pow_succ]
    ring

theorem value_spellOnto (fuel n : Nat) (rest : List Digit) (h : n < fuel) :
    value (spellOnto fuel n rest) = 10 ^ rest.length * n + value rest := by
  induction fuel generalizing n rest with
  | zero => exact absurd h (Nat.not_lt_zero n)
  | succ fuel ih =>
    have hcons : value (⟨n % 10, Nat.mod_lt n (by omega)⟩ :: rest) =
        10 ^ rest.length * (n % 10) + value rest := by
      conv_lhs => unfold value
      rw [List.foldl_cons, foldl_value]
      simp
    unfold spellOnto
    dsimp only
    split
    · next h10 => rw [hcons, Nat.mod_eq_of_lt h10]
    · next h10 =>
      rw [ih _ _ (by omega), hcons, List.length_cons, Nat.pow_succ, ← Nat.add_assoc,
        Nat.mul_assoc, ← Nat.mul_add, Nat.div_add_mod]

/-- The digits of a number have it as their value. -/
@[simp] theorem value_spell (n : Nat) : value (spell n) = n := by
  rw [spell, value_spellOnto _ _ _ (Nat.lt_succ_self n)]
  simp [value]

/-- The digits of a number start with zero only for the number zero. -/
theorem spellOnto_eq_cons (fuel n : Nat) (rest : List Digit) (h : n < fuel) (h0 : n ≠ 0) :
    ∃ d ds, spellOnto fuel n rest = d :: ds ∧ d.val ≠ 0 := by
  induction fuel generalizing n rest with
  | zero => exact absurd h (Nat.not_lt_zero n)
  | succ fuel ih =>
    unfold spellOnto
    dsimp only
    split
    · next h10 => exact ⟨_, _, rfl, by dsimp only; omega⟩
    · next h10 => exact ih _ _ (by omega) (by omega)

theorem exists_spell_eq_cons (n : Nat) :
    ∃ d ds, spell n = d :: ds ∧ (d.val = 0 → ds = []) := by
  by_cases h0 : n = 0
  · subst h0
    exact ⟨0, [], rfl, fun _ => rfl⟩
  · obtain ⟨d, ds, h, hd⟩ := spellOnto_eq_cons (n + 1) n [] (Nat.lt_succ_self n) h0
    exact ⟨d, ds, h, fun h0 => absurd h0 hd⟩

end Digit

namespace Numeral

/-- A numeral that has digits before the point, of which the first is zero only if it is the
last. -/
def WellFormed (n : Numeral) : Prop :=
  ∃ d ds, n.whole = d :: ds ∧ (d.val = 0 → ds = [])

theorem wellFormed_ofNat (n : Nat) : (ofNat n).WellFormed :=
  Digit.exists_spell_eq_cons n

/-- A whole number is read back if it is below the bound. -/
theorem toNat?_ofNat {bound n : Nat} (h : n < bound) : (ofNat n).toNat? bound = some n := by
  simp [toNat?, ofNat, h]

end Numeral

namespace Json

/-! ## Digits in a text -/

/-- A text that does not start with a digit. -/
def NoDigit (s : List UInt8) : Prop :=
  ∀ o s', s = o :: s' → Digit.ofOctet? o = none

/-- A text that cannot go on with a number. -/
def NoNumeral (s : List UInt8) : Prop :=
  ∀ o s', s = o :: s' → Digit.ofOctet? o = none ∧ o ≠ 46 ∧ o ≠ 101 ∧ o ≠ 69

theorem NoNumeral.noDigit {s : List UInt8} (h : NoNumeral s) : NoDigit s :=
  fun o s' hs => (h o s' hs).1

theorem noDigit_nil : NoDigit [] := by
  rintro o s h
  cases h

theorem noDigit_cons {o : UInt8} {s : List UInt8} (h : Digit.ofOctet? o = none) :
    NoDigit (o :: s) := by
  rintro o' s' hs
  cases hs
  exact h

theorem spanDigits_append (ds : List Digit) {s : List UInt8} (hs : NoDigit s) :
    spanDigits (ds.map Digit.octet ++ s) = (ds, s) := by
  induction ds with
  | nil =>
    cases s with
    | nil => rfl
    | cons o s =>
      rw [List.map_nil, List.nil_append, spanDigits, hs o s rfl]
  | cons d ds ih =>
    rw [List.map_cons, List.cons_append, spanDigits, Digit.ofOctet?_octet, ih]

/-! ## Parts of a number -/

/-- The text of the power of ten of a numeral. -/
def exponentText : Option Int → List UInt8
  | none => []
  | some e => Numeral.exponentOctets e

/-- The text of the fraction of a numeral. -/
def fractionText (ds : List Digit) : List UInt8 :=
  if ds.isEmpty then [] else 46 :: ds.map Digit.octet

/-- The digits of a power of ten, behind its sign. -/
theorem readPower?_spell (n : Nat) {s : List UInt8} (hs : NoDigit s) :
    readPower? (43 :: (Digit.spell n).map Digit.octet ++ s) = some ((n : Int), s) ∧
      readPower? (45 :: (Digit.spell n).map Digit.octet ++ s) = some (-(n : Int), s) := by
  have hspan := spanDigits_append (Digit.spell n) hs
  obtain ⟨d, ds, hspell, -⟩ := Digit.exists_spell_eq_cons n
  have hval : Digit.value (d :: ds) = n := by rw [← hspell, Digit.value_spell]
  rw [hspell] at hspan ⊢
  constructor
  · unfold readPower?
    simp only [List.cons_append]
    rw [hspan]
    simp [hval]
  · unfold readPower?
    simp only [List.cons_append]
    rw [hspan]
    simp [hval]

theorem readExponent?_append (e : Option Int) {s : List UInt8} (hs : NoNumeral s) :
    readExponent? (exponentText e ++ s) = some (e, s) := by
  cases e with
  | none =>
    cases s with
    | nil => rfl
    | cons o s =>
      obtain ⟨-, -, h1, h2⟩ := hs o s rfl
      show readExponent? (o :: s) = _
      unfold readExponent?
      simp [h1, h2]
  | some e =>
    obtain ⟨hplus, hminus⟩ := readPower?_spell e.natAbs hs.noDigit
    show (readPower? ((if e < 0 then 45 else 43) :: (Digit.spell e.natAbs).map Digit.octet ++
      s)).map (fun read => (some read.1, read.2)) = some (some e, s)
    split
    · next h0 =>
      rw [hminus, Option.map_some, show -(e.natAbs : Int) = e by omega]
    · next h0 =>
      rw [hplus, Option.map_some, show (e.natAbs : Int) = e by omega]

theorem readFraction?_append (ds : List Digit) {s : List UInt8} (hs : NoDigit s)
    (h46 : ∀ s', s ≠ 46 :: s') : readFraction? (fractionText ds ++ s) = some (ds, s) := by
  cases ds with
  | nil =>
    show readFraction? s = _
    unfold readFraction?
    split
    · next s' => exact absurd rfl (h46 s')
    · rfl
  | cons d ds =>
    show readFraction? (46 :: ((d :: ds).map Digit.octet ++ s)) = _
    rw [readFraction?, spanDigits_append _ hs]

theorem readWhole?_append {ds : List Digit} {s : List UInt8} (hs : NoDigit s)
    (h : ∃ d ds', ds = d :: ds' ∧ (d.val = 0 → ds' = [])) :
    readWhole? (ds.map Digit.octet ++ s) = some (ds, s) := by
  obtain ⟨d, ds, rfl, h0⟩ := h
  unfold readWhole?
  rw [spanDigits_append _ hs]
  dsimp only
  rw [if_neg]
  rintro ⟨hd, hne⟩
  exact hne (h0 hd)

theorem octets_eq (n : Numeral) : n.octets = (if n.negative then [45] else []) ++
    n.whole.map Digit.octet ++ fractionText n.fraction ++ exponentText n.exponent := by
  unfold Numeral.octets
  cases n.exponent <;> rfl

theorem noDigit_exponentText (e : Option Int) {s : List UInt8} (hs : NoDigit s) :
    NoDigit (exponentText e ++ s) := by
  cases e with
  | none => exact hs
  | some e => exact noDigit_cons (by decide)

theorem noDigit_fractionText (ds : List Digit) {s : List UInt8} (hs : NoDigit s) :
    NoDigit (fractionText ds ++ s) := by
  cases ds with
  | nil => exact hs
  | cons d ds => exact noDigit_cons (by decide)

theorem exponentText_append_ne (e : Option Int) {s : List UInt8} (hs : NoNumeral s)
    (s' : List UInt8) : exponentText e ++ s ≠ 46 :: s' := by
  cases e with
  | none =>
    intro h
    exact (hs 46 s' h).2.1 rfl
  | some e =>
    intro h
    cases h

/-- The text of a numeral behind its sign. -/
def unsignedText (n : Numeral) : List UInt8 :=
  n.whole.map Digit.octet ++ (fractionText n.fraction ++ exponentText n.exponent)

/-- A number that is written without a sign does not seem to have one. -/
theorem unsignedText_ne (n : Numeral) (s : List UInt8) : unsignedText n ≠ 45 :: s := by
  unfold unsignedText
  cases n.whole with
  | cons d ds => exact fun h => d.octet_ne_minus (List.cons.inj h).1
  | nil =>
    cases n.fraction with
    | cons d ds =>
      intro h
      cases h
    | nil =>
      cases n.exponent <;> intro h <;> cases h

theorem readNumeral?_octets_append (n : Numeral) {s : List UInt8}
    (h : ∀ s', unsignedText n ++ s ≠ 45 :: s') :
    readNumeral? (n.octets ++ s) = readUnsigned? n.negative (unsignedText n ++ s) := by
  have hsign : n.octets ++ s = (if n.negative then [45] else []) ++ (unsignedText n ++ s) := by
    simp [octets_eq, unsignedText]
  rw [hsign]
  cases n.negative with
  | true => rfl
  | false =>
    unfold readNumeral?
    split
    · next heq => exact absurd heq (h _)
    · rfl

/-- The text of a well-formed numeral, its sign apart, is read back. -/
theorem readUnsigned?_unsignedText {n : Numeral} (hn : n.WellFormed) {s : List UInt8}
    (hs : NoNumeral s) : readUnsigned? n.negative (unsignedText n ++ s) = some (n, s) := by
  have he := noDigit_exponentText n.exponent hs.noDigit
  unfold readUnsigned? unsignedText
  rw [List.append_assoc, List.append_assoc,
    readWhole?_append (noDigit_fractionText n.fraction he) hn]
  dsimp only [bind, Option.bind]
  rw [readFraction?_append _ he (exponentText_append_ne _ hs)]
  dsimp only
  rw [readExponent?_append _ hs]
  rfl

/-- **Numerals read back.** The text of a well-formed numeral is read as that numeral. -/
theorem readNumeral?_octets {n : Numeral} (hn : n.WellFormed) {s : List UInt8}
    (hs : NoNumeral s) : readNumeral? (n.octets ++ s) = some (n, s) := by
  have hminus (s' : List UInt8) : unsignedText n ++ s ≠ 45 :: s' := by
    obtain ⟨d, ds, hwhole, -⟩ := hn
    unfold unsignedText
    rw [hwhole]
    exact fun h => d.octet_ne_minus (List.cons.inj h).1
  rw [readNumeral?_octets_append n hminus, readUnsigned?_unsignedText hn hs]

/-- A numeral whose text is read is well-formed. -/
theorem wellFormed_of_readNumeral? {n : Numeral} {read : Numeral × List UInt8}
    (h : readNumeral? n.octets = some read) : n.WellFormed := by
  have hrest : NoDigit (fractionText n.fraction ++ exponentText n.exponent) := by
    have hexponent := noDigit_exponentText n.exponent noDigit_nil
    rw [List.append_nil] at hexponent
    exact noDigit_fractionText n.fraction hexponent
  rw [← List.append_nil n.octets, readNumeral?_octets_append n
    (by simpa using unsignedText_ne n), List.append_nil] at h
  obtain ⟨whole, hwhole, -⟩ := Option.bind_eq_some_iff.1 h
  unfold readWhole? unsignedText at hwhole
  rw [spanDigits_append _ hrest] at hwhole
  cases hdigits : n.whole with
  | nil =>
    rw [hdigits] at hwhole
    cases hwhole
  | cons d ds =>
    refine ⟨d, ds, hdigits, fun hd => ?_⟩
    by_contra hne
    rw [hdigits] at hwhole
    dsimp only at hwhole
    rw [if_pos ⟨hd, hne⟩] at hwhole
    cases hwhole

/-- Every octet of a numeral is a digit, a sign, a point or the mark of a power of ten. -/
theorem mem_octets {n : Numeral} {o : UInt8} (h : o ∈ n.octets) :
    o = 43 ∨ o = 45 ∨ o = 46 ∨ o = 101 ∨ ∃ d : Digit, o = d.octet := by
  have hdigits {ds : List Digit} (h : o ∈ ds.map Digit.octet) : ∃ d : Digit, o = d.octet := by
    obtain ⟨d, -, rfl⟩ := List.mem_map.1 h
    exact ⟨d, rfl⟩
  rw [octets_eq, List.mem_append, List.mem_append, List.mem_append] at h
  rcases h with ((h | h) | h) | h
  · split at h
    · exact .inr (.inl (List.mem_singleton.1 h))
    · cases h
  · exact .inr (.inr (.inr (.inr (hdigits h))))
  · unfold fractionText at h
    split at h
    · cases h
    · rcases List.mem_cons.1 h with rfl | h
      · decide
      · exact .inr (.inr (.inr (.inr (hdigits h))))
  · unfold exponentText at h
    split at h
    · cases h
    · rcases List.mem_cons.1 h with rfl | h
      · decide
      · rcases List.mem_cons.1 h with rfl | h
        · split <;> decide
        · exact .inr (.inr (.inr (.inr (hdigits h))))

end Json

end ImplicitTiling
