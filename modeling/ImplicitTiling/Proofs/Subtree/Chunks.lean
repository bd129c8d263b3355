import ImplicitTiling.Proofs.Octets
import ImplicitTiling.Subtree.Decoding
import ImplicitTiling.Subtree.Encoding

/-!
# The two chunks of an encoded subtree

`HoldsChunks` says of a byte string that it starts with a good header and is long enough for the
chunks that the header declares. `splitChunks_eq_ok_iff`: those are the byte strings that split, and
what they split into.
-/

namespace ImplicitTiling

namespace Header

theorem read_eq_ok_iff {bytes : ByteArray} {h : Header} :
    read bytes = .ok h ↔ size ≤ bytes.size ∧ h.magic = subtreeMagic ∧ h.version = subtreeVersion ∧
      h.magic = (Octets.wordAt bytes 0 4).toUInt32 ∧
      h.version = (Octets.wordAt bytes 4 4).toUInt32 ∧
      h.jsonLength = Octets.wordAt bytes 8 8 ∧ h.binaryLength = Octets.wordAt bytes 16 8 := by
  obtain ⟨magic, version, jsonLength, binaryLength⟩ := h
  unfold read
  constructor
  · intro hread
    split at hread
    · cases hread
    · next hsize =>
      dsimp only at hread
      split at hread
      · cases hread
      · next hmagic =>
        split at hread
        · cases hread
        · next hversion =>
          cases hread
          exact ⟨by omega, Decidable.not_not.1 hmagic, Decidable.not_not.1 hversion, rfl, rfl, rfl,
            rfl⟩
  · rintro ⟨hsize, hmagic, hversion, h1, h2, h3, h4⟩
    dsimp only at hmagic hversion h1 h2 h3 h4 ⊢
    rw [if_neg (by omega), ← h1, ← h2, ← h3, ← h4, if_neg (not_not_intro hmagic),
      if_neg (not_not_intro hversion)]

@[simp] theorem length_octets (h : Header) : h.octets.length = size := by
  simp [octets, size]

theorem toUInt32_and_lowMask (w : UInt32) :
    (w.toUInt64 &&& Word.lowMask (8 * 4)).toUInt32 = w := by
  apply UInt32.toNat_inj.1
  have hmask : (Word.lowMask (8 * 4)).toNat = 2 ^ 32 - 1 := Word.toNat_lowMask _
  rw [UInt64.toNat_toUInt32, UInt64.toNat_and, hmask, Nat.and_two_pow_sub_one_eq_mod,
    UInt32.toNat_toUInt64, Nat.mod_mod, Nat.mod_eq_of_lt w.toNat_lt]

theorem and_lowMask_word (w : UInt64) : w &&& Word.lowMask (8 * 8) = w := by
  apply Word.ext
  intro i hi
  simp [hi]

/-- A header is read back from its bytes, whatever follows them. -/
theorem read_octets {h : Header} (hmagic : h.magic = subtreeMagic)
    (hversion : h.version = subtreeVersion) (back : List UInt8) (rest : ByteArray) :
    read (Octets.pack (h.octets ++ back) ++ rest) = .ok h := by
  have hlen : (Octets.pack (h.octets ++ back)).size = 24 + back.length := by
    rw [Octets.size_pack, List.length_append, length_octets]
    rfl
  have hword (front tail : List UInt8) (n : Nat) (w : UInt64) (hn : n ≤ 8)
      (h24 : front.length + n ≤ 24)
      (hsplit : h.octets ++ back = front ++ Octets.ofWord n w ++ tail) :
      Octets.wordAt (Octets.pack (h.octets ++ back) ++ rest) front.length n =
        w &&& Word.lowMask (8 * n) := by
    rw [Octets.wordAt_append_left rest (by omega), hsplit]
    exact Octets.wordAt_ofWord front tail hn w
  let a := Octets.ofWord 4 h.magic.toUInt64
  let b := Octets.ofWord 4 h.version.toUInt64
  let c := Octets.ofWord 8 h.jsonLength
  let d := Octets.ofWord 8 h.binaryLength
  have hsplit : h.octets ++ back = a ++ b ++ c ++ d ++ back := rfl
  have h0 := hword [] (b ++ c ++ d ++ back) 4 h.magic.toUInt64 (by decide) (by decide)
    (by rw [hsplit, List.nil_append]; simp only [List.append_assoc, a])
  have h4 := hword a (c ++ d ++ back) 4 h.version.toUInt64 (by decide) (by simp [a])
    (by rw [hsplit]; simp only [List.append_assoc, b])
  have h8 := hword (a ++ b) (d ++ back) 8 h.jsonLength (by decide) (by simp [a, b])
    (by rw [hsplit]; simp only [List.append_assoc, c])
  have h16 := hword (a ++ b ++ c) back 8 h.binaryLength (by decide) (by simp [a, b, c]) hsplit
  simp only [a, b, c] at h0 h4 h8 h16
  simp only [List.length_nil, List.length_append, Octets.length_ofWord] at h0 h4 h8 h16
  apply read_eq_ok_iff.2
  rw [h0, h4, h8, h16]
  refine ⟨?_, hmagic, hversion, ?_, ?_, ?_, ?_⟩
  · rw [ByteArray.size_append, hlen]
    unfold size
    omega
  · exact (toUInt32_and_lowMask h.magic).symm
  · exact (toUInt32_and_lowMask h.version).symm
  · exact (and_lowMask_word h.jsonLength).symm
  · exact (and_lowMask_word h.binaryLength).symm

end Header

/-- The bytes start with a header that declares chunks of `jsonLength` and `binaryLength` bytes, and
they hold both. -/
structure HoldsChunks (bytes : ByteArray) (jsonLength binaryLength : Nat) : Prop where
  magic : (Octets.wordAt bytes 0 4).toUInt32 = Header.subtreeMagic
  version : (Octets.wordAt bytes 4 4).toUInt32 = Header.subtreeVersion
  jsonLength_eq : (Octets.wordAt bytes 8 8).toNat = jsonLength
  binaryLength_eq : (Octets.wordAt bytes 16 8).toNat = binaryLength
  size_le : 24 + jsonLength + binaryLength ≤ bytes.size

/-- The first `jsonLength` bytes behind the header. -/
def jsonChunk (bytes : ByteArray) (jsonLength : Nat) : ByteArray :=
  bytes.extract 24 (24 + jsonLength)

/-- The `binaryLength` bytes behind the JSON chunk. -/
def binaryChunk (bytes : ByteArray) (jsonLength binaryLength : Nat) : ByteArray :=
  bytes.extract (24 + jsonLength) (24 + jsonLength + binaryLength)

namespace HoldsChunks

variable {bytes : ByteArray} {j k : Nat}

theorem size_jsonChunk (h : HoldsChunks bytes j k) : (jsonChunk bytes j).size = j := by
  have := h.size_le
  rw [jsonChunk, ByteArray.size_extract]
  omega

theorem size_binaryChunk (h : HoldsChunks bytes j k) : (binaryChunk bytes j k).size = k := by
  have := h.size_le
  rw [binaryChunk, ByteArray.size_extract]
  omega

theorem lengths_unique {j' k' : Nat} (h : HoldsChunks bytes j k) (h' : HoldsChunks bytes j' k') :
    j = j' ∧ k = k' :=
  ⟨h.jsonLength_eq.symm.trans h'.jsonLength_eq, h.binaryLength_eq.symm.trans h'.binaryLength_eq⟩

theorem read_eq (h : HoldsChunks bytes j k) :
    Header.read bytes = .ok ⟨Header.subtreeMagic, Header.subtreeVersion,
      Octets.wordAt bytes 8 8, Octets.wordAt bytes 16 8⟩ := by
  apply Header.read_eq_ok_iff.2
  refine ⟨?_, rfl, rfl, h.magic.symm, h.version.symm, rfl, rfl⟩
  have := h.size_le
  unfold Header.size
  omega

end HoldsChunks

namespace Subtree

theorem splitChunks_of_read {bytes : ByteArray} {h : Header} (hread : Header.read bytes = .ok h) :
    splitChunks bytes =
      (if lengthLimit ≤ 24 + h.jsonLength.toNat then .error .jsonLengthOverflow
      else if lengthLimit ≤ 24 + h.jsonLength.toNat + h.binaryLength.toNat then
        .error .binaryLengthOverflow
      else if bytes.size < 24 + h.jsonLength.toNat + h.binaryLength.toNat then
        .error (.shorterThanDeclared (24 + h.jsonLength.toNat + h.binaryLength.toNat) bytes.size)
      else .ok (jsonChunk bytes h.jsonLength.toNat,
        binaryChunk bytes h.jsonLength.toNat h.binaryLength.toNat)) := by
  unfold splitChunks
  rw [hread]
  by_cases h1 : lengthLimit ≤ 24 + h.jsonLength.toNat
  · rw [if_pos h1]
    exact (if_pos h1).trans rfl
  · rw [if_neg h1]
    refine (if_neg h1).trans ?_
    by_cases h2 : lengthLimit ≤ 24 + h.jsonLength.toNat + h.binaryLength.toNat
    · rw [if_pos h2]
      exact (if_pos h2).trans rfl
    · rw [if_neg h2]
      refine (if_neg h2).trans ?_
      by_cases h3 : bytes.size < 24 + h.jsonLength.toNat + h.binaryLength.toNat
      · rw [if_pos h3]
        exact (if_pos h3).trans rfl
      · rw [if_neg h3]
        exact (if_neg h3).trans rfl

theorem exists_of_splitChunks {bytes json binary : ByteArray}
    (h : splitChunks bytes = .ok (json, binary)) : ∃ j k, HoldsChunks bytes j k ∧
      json = jsonChunk bytes j ∧ binary = binaryChunk bytes j k := by
  cases hread : Header.read bytes with
  | error e =>
    unfold splitChunks at h
    rw [hread] at h
    cases h
  | ok header =>
    rw [splitChunks_of_read hread] at h
    obtain ⟨-, hmagic, hversion, h0, h4, h8, h16⟩ := Header.read_eq_ok_iff.1 hread
    split at h
    · cases h
    · split at h
      · cases h
      · split at h
        · cases h
        · next hsize =>
          cases h
          refine ⟨_, _, ⟨h0.symm.trans hmagic, h4.symm.trans hversion, ?_, ?_, Nat.not_lt.1 hsize⟩,
            rfl, rfl⟩
          · rw [h8]
          · rw [h16]

/-- **Splitting.** Exactly the byte strings that hold the chunks they declare split, into those
chunks. -/
theorem splitChunks_eq_ok_iff {bytes json binary : ByteArray} (hb : bytes.size < lengthLimit) :
    splitChunks bytes = .ok (json, binary) ↔ ∃ j k, HoldsChunks bytes j k ∧
      json = jsonChunk bytes j ∧ binary = binaryChunk bytes j k := by
  constructor
  · exact exists_of_splitChunks
  · rintro ⟨j, k, hc, rfl, rfl⟩
    have hsize := hc.size_le
    rw [splitChunks_of_read hc.read_eq, hc.jsonLength_eq, hc.binaryLength_eq, if_neg (by omega),
      if_neg (by omega), if_neg (by omega)]

end Subtree

end ImplicitTiling
