import ImplicitTiling.Bitset.Bytes
import ImplicitTiling.Proofs.Octets

/-!
# Bit sets packed and unpacked

Bit `i` of byte `k` of a packed bit set is position `8 * k + i` (`testBit_toBytes`), and position
`i` of an unpacked one is bit `i % 8` of byte `i / 8` (`ofBytes?_eq_some_iff`), so unpacking undoes
packing (`ofBytes?_toBytes`), and packing gives back the bits that were unpacked and clears those
behind them (`toBytes_of_ofBytes?`). `ofBytes?_inverse_toBytes` puts this together.
-/

namespace ImplicitTiling

theorem byteCount_mono {m n : Nat} (h : m ≤ n) : byteCount m ≤ byteCount n :=
  Nat.div_le_div_right (Nat.add_le_add_right h 7)

namespace Bitset

@[simp] theorem size_toBytes (b : Bitset) : b.toBytes.size = byteCount b.size :=
  Array.size_ofFn

/-- Bit `i` of byte `k` of the packed bytes is position `8 * k + i`. -/
theorem testBit_toBytes (b : Bitset) (k : Nat) {i : Nat} (hi : i < 8) :
    (Octets.byteAt b.toBytes k).toNat.testBit i = b.get (8 * k + i) := by
  by_cases hk : k < b.toBytes.size
  · have hbyte : Octets.byteAt b.toBytes k =
        (b.words.getD (k / 8) 0 >>> (8 * (k % 8)).toUInt64).toUInt8 := by
      unfold Octets.byteAt
      rw [dif_pos hk]
      exact Array.getElem_ofFn _
    have hq : (8 * k + i) / 64 = k / 8 := by omega
    have hr : (8 * k + i) % 64 = 8 * (k % 8) + i := by omega
    rw [hbyte, Octets.testBit_toUInt8, Word.bit_shiftRight _ (by omega), decide_eq_true hi,
      Bool.true_and, get, bitOfWords, hq, hr]
  · rw [Octets.byteAt_of_ge (Nat.not_lt.1 hk)]
    rw [size_toBytes, byteCount] at hk
    rw [get_of_le (by omega)]
    exact Nat.zero_testBit i

/-- Unpacking needs `byteCount n` bytes; position `i` is bit `i % 8` of byte `i / 8`. -/
theorem ofBytes?_eq_some_iff {bytes : ByteArray} {n : Nat} {b : Bitset} :
    ofBytes? bytes n = some b ↔ byteCount n ≤ bytes.size ∧ b.size = n ∧
      ∀ i < n, b.get i = (Octets.byteAt bytes (i / 8)).toNat.testBit (i % 8) := by
  have hbit (i : Nat) : (build n fun k => Octets.wordAt bytes (8 * k) 8).get i =
      (decide (i < n) && (Octets.byteAt bytes (i / 8)).toNat.testBit (i % 8)) := by
    have hlt : i % 64 < 8 * 8 := by omega
    have hq : 8 * (i / 64) + i % 64 / 8 = i / 8 := by omega
    have hr : i % 64 % 8 = i % 8 := by omega
    rw [get_build, Octets.bit_wordAt _ _ (Nat.le_refl 8), hq, hr, decide_eq_true hlt, Bool.true_and]
  unfold ofBytes?
  constructor
  · intro h
    split at h
    · cases h
    · next hsize =>
      cases h
      refine ⟨by omega, rfl, ?_⟩
      intro i hi
      rw [hbit, decide_eq_true hi, Bool.true_and]
  · rintro ⟨hsize, hn, hget⟩
    rw [if_neg (by omega)]
    congr 1
    apply ext_get hn.symm
    intro i
    rw [hbit]
    by_cases hi : i < n
    · rw [decide_eq_true hi, Bool.true_and, hget i hi]
    · rw [get_of_le (by omega), decide_eq_false hi, Bool.false_and]

theorem ofBytes?_eq_none_iff {bytes : ByteArray} {n : Nat} :
    ofBytes? bytes n = none ↔ bytes.size < byteCount n := by
  unfold ofBytes?
  split <;> simp_all

theorem ofBytes?_toBytes (b : Bitset) : ofBytes? b.toBytes b.size = some b := by
  apply ofBytes?_eq_some_iff.2
  refine ⟨Nat.le_of_eq (size_toBytes b).symm, rfl, ?_⟩
  intro i hi
  have hi8 : 8 * (i / 8) + i % 8 = i := by omega
  rw [testBit_toBytes b _ (Nat.mod_lt i (by decide)), hi8]

/-! ## Bytes that are read and written back -/

/-- The first `n` bits of a byte string: the bytes of which all bits count, and of the byte behind
them the low `n % 8` bits. -/
def firstBits (bytes : ByteArray) (n : Nat) : ByteArray :=
  bytes.extract 0 (n / 8) ++ Octets.pack
    (if n % 8 = 0 then []
    else [UInt8.ofNat ((Octets.byteAt bytes (n / 8)).toNat % 2 ^ (n % 8))])

section

variable {bytes : ByteArray} {n : Nat}

theorem size_extract_whole (h : byteCount n ≤ bytes.size) :
    (bytes.extract 0 (n / 8)).size = n / 8 := by
  rw [byteCount] at h
  rw [ByteArray.size_extract]
  omega

theorem size_firstBits (h : byteCount n ≤ bytes.size) :
    (firstBits bytes n).size = byteCount n := by
  rw [firstBits, ByteArray.size_append, size_extract_whole h, Octets.size_pack, byteCount]
  split
  · rw [List.length_nil]
    omega
  · rw [List.length_singleton]
    omega

theorem testBit_firstBits (h : byteCount n ≤ bytes.size) (k : Nat) {i : Nat} (hi : i < 8) :
    (Octets.byteAt (firstBits bytes n) k).toNat.testBit i =
      (decide (8 * k + i < n) && (Octets.byteAt bytes k).toNat.testBit i) := by
  have hwhole := size_extract_whole h
  rcases Nat.lt_trichotomy k (n / 8) with hk | rfl | hk
  · have hlt : 8 * k + i < n := by omega
    rw [firstBits, Octets.byteAt_append_left _ (hwhole.symm ▸ hk),
      Octets.byteAt_extract bytes (by rw [byteCount] at h; omega) (by omega), Nat.zero_add,
      decide_eq_true hlt, Bool.true_and]
  · by_cases hr : n % 8 = 0
    · have hge : ¬ 8 * (n / 8) + i < n := by omega
      have hend : (firstBits bytes n).size ≤ n / 8 := by
        rw [size_firstBits h, byteCount]
        omega
      rw [Octets.byteAt_of_ge hend, decide_eq_false hge, Bool.false_and]
      exact Nat.zero_testBit i
    · have hiff : 8 * (n / 8) + i < n ↔ i < n % 8 := by omega
      have hlt : (Octets.byteAt bytes (n / 8)).toNat % 2 ^ (n % 8) < 2 ^ 8 :=
        Nat.lt_of_le_of_lt (Nat.mod_le _ _) (UInt8.toNat_lt _)
      have hbyte (o : UInt8) : Octets.byteAt (Octets.pack [o]) 0 = o :=
        Octets.byteAt_pack_append [] o []
      have hlast := Octets.byteAt_append_right (bytes.extract 0 (n / 8))
        (Octets.pack [UInt8.ofNat ((Octets.byteAt bytes (n / 8)).toNat % 2 ^ (n % 8))]) 0
      rw [hwhole, Nat.add_zero, hbyte] at hlast
      rw [firstBits, if_neg hr, hlast, UInt8.toNat_ofNat', Nat.mod_eq_of_lt hlt,
        Nat.testBit_mod_two_pow, decide_eq_decide.2 hiff]
  · have hge : ¬ 8 * k + i < n := by omega
    have hend : (firstBits bytes n).size ≤ k := by
      rw [size_firstBits h, byteCount]
      omega
    rw [Octets.byteAt_of_ge hend, decide_eq_false hge, Bool.false_and]
    exact Nat.zero_testBit i

variable {b : Bitset}

theorem toBytes_of_ofBytes? (h : ofBytes? bytes n = some b) : b.toBytes = firstBits bytes n := by
  obtain ⟨hlong, hsize, hget⟩ := ofBytes?_eq_some_iff.1 h
  apply Octets.eq_of_byteAt
  · rw [size_toBytes, hsize, size_firstBits hlong]
  · intro k hk
    apply Octets.eq_of_testBit
    intro i hi
    rw [testBit_toBytes b k hi, testBit_firstBits hlong k hi]
    by_cases hlt : 8 * k + i < n
    · have hq : (8 * k + i) / 8 = k := by omega
      have hr : (8 * k + i) % 8 = i := by omega
      rw [decide_eq_true hlt, Bool.true_and, hget _ hlt, hq, hr]
    · rw [decide_eq_false hlt, Bool.false_and, get_of_le (by omega)]

theorem ofBytes?_append (h : ofBytes? bytes n = some b) (more : ByteArray) :
    ofBytes? (bytes ++ more) n = some b := by
  obtain ⟨hlong, hsize, hget⟩ := ofBytes?_eq_some_iff.1 h
  apply ofBytes?_eq_some_iff.2
  refine ⟨?_, hsize, ?_⟩
  · rw [ByteArray.size_append]
    omega
  · intro i hi
    rw [byteCount] at hlong
    rw [Octets.byteAt_append_left more (by omega), hget i hi]

end

/-- **Bits and bytes convert both ways.** Packed bytes hold position `i` at bit `i % 8` of byte
`i / 8` and are unpacked to the same set. Unpacking `n` bits needs `⌈n / 8⌉` bytes, and packing gives
back those bits, whatever follows them. -/
theorem ofBytes?_inverse_toBytes :
    (∀ b : Bitset, ofBytes? b.toBytes b.size = some b ∧ b.toBytes.size = (b.size + 7) / 8 ∧
      ∀ i, (Octets.byteAt b.toBytes (i / 8)).toNat.testBit (i % 8) =
        if i < b.size then b.get i else false) ∧
    ∀ (bytes : ByteArray) (n : Nat), (ofBytes? bytes n = none ↔ bytes.size < (n + 7) / 8) ∧
      ((n + 7) / 8 ≤ bytes.size → ∃ b, ofBytes? bytes n = some b ∧ b.size = n ∧
        b.toBytes = firstBits bytes n ∧ ∀ more, ofBytes? (bytes ++ more) n = some b) := by
  constructor
  · intro b
    refine ⟨ofBytes?_toBytes b, size_toBytes b, ?_⟩
    intro i
    have hi : 8 * (i / 8) + i % 8 = i := by omega
    rw [testBit_toBytes b _ (Nat.mod_lt i (by decide)), hi]
    split
    · rfl
    · next hge => exact get_of_le (Nat.not_lt.1 hge)
  · intro bytes n
    refine ⟨ofBytes?_eq_none_iff, ?_⟩
    intro hlong
    cases hb : ofBytes? bytes n with
    | none => exact absurd (ofBytes?_eq_none_iff.1 hb) (Nat.not_lt.2 hlong)
    | some b =>
      exact ⟨b, rfl, (ofBytes?_eq_some_iff.1 hb).2.1, toBytes_of_ofBytes? hb, ofBytes?_append hb⟩

/-- Seventy bits of eleven bytes: a full word, and of the ninth byte the low six bits. -/
theorem ofBytes?_inverse_toBytes_seventy :
    (70 + 7) / 8 ≤ (ByteArray.mk #[1, 2, 3, 4, 5, 6, 7, 8, 0xFD, 0xFF, 0xFF]).size ∧
      ∃ b, ofBytes? ⟨#[1, 2, 3, 4, 5, 6, 7, 8, 0xFD, 0xFF, 0xFF]⟩ 70 = some b ∧ b.size = 70 ∧
        b.toBytes = ⟨#[1, 2, 3, 4, 5, 6, 7, 8, 0x3D]⟩ ∧
        ∀ more, ofBytes? (⟨#[1, 2, 3, 4, 5, 6, 7, 8, 0xFD, 0xFF, 0xFF]⟩ ++ more) 70 = some b := by
  have hlong : (70 + 7) / 8 ≤ (ByteArray.mk #[1, 2, 3, 4, 5, 6, 7, 8, 0xFD, 0xFF, 0xFF]).size := by
    decide
  have hbits : firstBits ⟨#[1, 2, 3, 4, 5, 6, 7, 8, 0xFD, 0xFF, 0xFF]⟩ 70 =
      ⟨#[1, 2, 3, 4, 5, 6, 7, 8, 0x3D]⟩ := by decide
  obtain ⟨b, hb, hsize, hbytes, hmore⟩ := (ofBytes?_inverse_toBytes.2 _ 70).2 hlong
  exact ⟨hlong, b, hb, hsize, hbytes.trans hbits, hmore⟩

end Bitset

end ImplicitTiling
