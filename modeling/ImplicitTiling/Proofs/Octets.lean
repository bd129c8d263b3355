import ImplicitTiling.Octets
import ImplicitTiling.Word

/-!
# Numbers in byte strings, bit by bit

`bit_wordAt`: bit `i` of a little-endian number is bit `i % 8` of its byte `i / 8`. From it follows
that a number is read back from its low bytes (`wordAt_ofWord`), wherever they stand.
-/

namespace ImplicitTiling.Octets

/-! ## Single bytes -/

theorem testBit_of_ge (o : UInt8) {i : Nat} (h : 8 ≤ i) : o.toNat.testBit i = false :=
  Nat.testBit_lt_two_pow
    (Nat.lt_of_lt_of_le o.toNat_lt (Nat.pow_le_pow_right (by decide) h))

theorem bit_toUInt64 (o : UInt8) (i : Nat) : Word.bit o.toUInt64 i = o.toNat.testBit i := by
  rw [Word.bit_eq_testBit, UInt8.toNat_toUInt64]

theorem testBit_toUInt8 (w : UInt64) (i : Nat) :
    w.toUInt8.toNat.testBit i = (decide (i < 8) && Word.bit w i) := by
  rw [Word.bit_eq_testBit, UInt64.toNat_toUInt8, Nat.testBit_mod_two_pow]

theorem byteAt_of_ge {bytes : ByteArray} {p : Nat} (h : bytes.size ≤ p) : byteAt bytes p = 0 :=
  dif_neg (Nat.not_lt.2 h)

/-- Octets with the same bits are equal. -/
theorem eq_of_testBit {o o' : UInt8}
    (h : ∀ i < 8, o.toNat.testBit i = o'.toNat.testBit i) : o = o' := by
  apply UInt8.toNat_inj.1
  apply Nat.eq_of_testBit_eq
  intro i
  by_cases hi : i < 8
  · exact h i hi
  · rw [testBit_of_ge o (Nat.not_lt.1 hi), testBit_of_ge o' (Nat.not_lt.1 hi)]

/-- Byte strings of one size with the same octets are equal. -/
theorem eq_of_byteAt {a b : ByteArray} (hs : a.size = b.size)
    (h : ∀ p < a.size, byteAt a p = byteAt b p) : a = b := by
  apply ByteArray.ext_getElem hs
  intro p hp hp'
  have hget := h p hp
  unfold byteAt at hget
  rwa [dif_pos hp, dif_pos hp'] at hget

theorem byteAt_append_left {a : ByteArray} (b : ByteArray) {p : Nat} (h : p < a.size) :
    byteAt (a ++ b) p = byteAt a p := by
  have hab : p < (a ++ b).size := by
    rw [ByteArray.size_append]
    omega
  unfold byteAt
  rw [dif_pos h, dif_pos hab, ByteArray.getElem_append_left h]

theorem byteAt_append_right (a b : ByteArray) (p : Nat) :
    byteAt (a ++ b) (a.size + p) = byteAt b p := by
  by_cases h : p < b.size
  · have hab : a.size + p < (a ++ b).size := by
      rw [ByteArray.size_append]
      omega
    unfold byteAt
    rw [dif_pos h, dif_pos hab, ByteArray.getElem_append_right (Nat.le_add_right _ _)]
    congr 1
    exact Nat.add_sub_cancel_left _ _
  · rw [byteAt_of_ge (Nat.not_lt.1 h), byteAt_of_ge (by rw [ByteArray.size_append]; omega)]

theorem byteAt_extract (bytes : ByteArray) {start stop p : Nat} (hstop : stop ≤ bytes.size)
    (h : start + p < stop) : byteAt (bytes.extract start stop) p = byteAt bytes (start + p) := by
  have hp : p < (bytes.extract start stop).size := by
    rw [ByteArray.size_extract]
    omega
  unfold byteAt
  rw [dif_pos hp, dif_pos (Nat.lt_of_lt_of_le h hstop), ByteArray.getElem_extract]

@[simp] theorem size_pack (octets : List UInt8) : (pack octets).size = octets.length :=
  List.size_toArray

@[simp] theorem unpack_pack (octets : List UInt8) : unpack (pack octets) = octets :=
  rfl

theorem byteAt_pack_append (front : List UInt8) (o : UInt8) (back : List UInt8) :
    byteAt (pack (front ++ o :: back)) front.length = o := by
  have h : front.length < (pack (front ++ o :: back)).size := by
    rw [size_pack, List.length_append, List.length_cons]
    omega
  unfold byteAt
  rw [dif_pos h]
  have hget : (front ++ o :: back)[front.length]? = some o := by simp
  exact List.getElem_eq_iff h |>.2 hget

theorem pack_append (a b : List UInt8) : pack (a ++ b) = pack a ++ pack b := by
  apply ByteArray.ext
  rw [ByteArray.data_append]
  show (a ++ b).toArray = a.toArray ++ b.toArray
  simp

/-! ## Words -/

/-- Bit `i` of a little-endian number is bit `i % 8` of its byte `i / 8`. -/
theorem bit_wordAt (bytes : ByteArray) (p : Nat) {n : Nat} (hn : n ≤ 8) (i : Nat) :
    Word.bit (wordAt bytes p n) i =
      (decide (i < 8 * n) && (byteAt bytes (p + i / 8)).toNat.testBit (i % 8)) := by
  induction n generalizing p i with
  | zero => simp [wordAt]
  | succ n ih =>
    have hshift : (wordAt bytes (p + 1) n <<< 8 : UInt64) =
        wordAt bytes (p + 1) n <<< (8 : Nat).toUInt64 := rfl
    rw [wordAt, Word.bit_or, bit_toUInt64, hshift, Word.bit_shiftLeft _ (by decide),
      ih (p + 1) (by omega)]
    by_cases hi : i < 8
    · have hq : i / 8 = 0 := by omega
      have hr : i % 8 = i := by omega
      have hlow : ¬ 8 ≤ i := by omega
      have hlt : i < 8 * (n + 1) := by omega
      simp [hq, hr, hlow, hlt]
    · have hq : p + 1 + (i - 8) / 8 = p + i / 8 := by omega
      have hr : (i - 8) % 8 = i % 8 := by omega
      have hle : 8 ≤ i := by omega
      have hiff : (i < 64 ∧ i - 8 < 8 * n) ↔ i < 8 * (n + 1) := by omega
      rw [testBit_of_ge _ hle, hq, hr, Bool.false_or, decide_eq_true hle, Bool.and_true,
        ← Bool.and_assoc, ← Bool.decide_and, decide_eq_decide.2 hiff]

theorem wordAt_append_left {a : ByteArray} (b : ByteArray) {p n : Nat} (h : p + n ≤ a.size) :
    wordAt (a ++ b) p n = wordAt a p n := by
  induction n generalizing p with
  | zero => rfl
  | succ n ih => rw [wordAt, wordAt, byteAt_append_left b (by omega), ih (by omega)]

@[simp] theorem length_ofWord (n : Nat) (w : UInt64) : (ofWord n w).length = n := by
  induction n generalizing w with
  | zero => rfl
  | succ n ih => rw [ofWord, List.length_cons, ih]

/-- The low `n` bytes of a number stand for the number cut to `8 n` bits. -/
theorem wordAt_ofWord (front back : List UInt8) {n : Nat} (hn : n ≤ 8) (w : UInt64) :
    wordAt (pack (front ++ ofWord n w ++ back)) front.length n = w &&& Word.lowMask (8 * n) := by
  induction n generalizing front w with
  | zero =>
    apply Word.ext
    intro i hi
    simp [wordAt]
  | succ n ih =>
    have hsplit : front ++ ofWord (n + 1) w ++ back =
        (front ++ [w.toUInt8]) ++ ofWord n (w >>> 8) ++ back := by
      simp [ofWord]
    have hbyte : byteAt (pack (front ++ ofWord (n + 1) w ++ back)) front.length = w.toUInt8 := by
      rw [ofWord, List.append_assoc, List.cons_append]
      exact byteAt_pack_append front w.toUInt8 _
    have hrest := ih (front ++ [w.toUInt8]) (by omega) (w >>> 8)
    rw [← hsplit, List.length_append, List.length_singleton] at hrest
    rw [wordAt, hbyte, hrest]
    apply Word.ext
    intro i hi
    have hshiftLeft (v : UInt64) : v <<< 8 = v <<< (8 : Nat).toUInt64 := rfl
    have hshiftRight : w >>> 8 = w >>> (8 : Nat).toUInt64 := rfl
    rw [Word.bit_or, bit_toUInt64, testBit_toUInt8, hshiftLeft, Word.bit_shiftLeft _ (by decide),
      Word.bit_and, Word.bit_and, Word.bit_lowMask, Word.bit_lowMask, hshiftRight,
      Word.bit_shiftRight _ (by decide)]
    by_cases hi8 : i < 8
    · have hlt : i < 8 * (n + 1) := by omega
      have hlow : ¬ 8 ≤ i := by omega
      simp [hi, hi8, hlow, hlt]
    · have hle : 8 ≤ i := by omega
      have hq : 8 + (i - 8) = i := by omega
      have hiff : i - 8 < 8 * n ↔ i < 8 * (n + 1) := by omega
      have hi' : i - 8 < 64 := by omega
      simp [hi, hi8, hle, hq, hiff, hi']

end ImplicitTiling.Octets
