import ImplicitTiling.Proofs.Subtree.Joining
import ImplicitTiling.Proofs.Subtree.RoundTrip

/-!
# Bytes cut off and bytes added

The header declares where the bytes of a subtree end. Bytes that end earlier are refused, wherever
they end (`splitChunks_of_cut`), and bytes behind that place are not looked at (`decode_append`).
`decode_of_cut_or_append` says so of the bytes of a subtree and of whatever decodes.
-/

namespace ImplicitTiling

theorem extract_append_left (a b : ByteArray) (i : Nat) {j : Nat} (h : j ≤ a.size) :
    (a ++ b).extract i j = a.extract i j := by
  have hnone : b.extract (i - a.size) (j - a.size) = .empty := by
    rw [Nat.sub_eq_zero_of_le h]
    simp
  rw [ByteArray.extract_append, hnone, ByteArray.append_empty]

namespace Header

theorem read_of_size_lt {bytes : ByteArray} (h : bytes.size < size) :
    read bytes = .error (.shortHeader bytes.size size) :=
  if_pos h

theorem read_append {a : ByteArray} (b : ByteArray) (h : size ≤ a.size) :
    read (a ++ b) = read a := by
  have h24 : 24 ≤ a.size := h
  unfold read
  rw [if_neg (Nat.not_lt.2 h), if_neg (by rw [ByteArray.size_append]; omega),
    Octets.wordAt_append_left b (by omega), Octets.wordAt_append_left b (by omega),
    Octets.wordAt_append_left b (by omega), Octets.wordAt_append_left b (by omega)]

end Header

namespace Subtree

variable {j k : Nat}

/-! ## Bytes added -/

theorem splitChunks_append {bytes : ByteArray} (h : HoldsChunks bytes j k) (suffix : ByteArray) :
    splitChunks (bytes ++ suffix) = splitChunks bytes := by
  have hsize := h.size_le
  have hread := h.read_eq
  have hread' : Header.read (bytes ++ suffix) = _ :=
    (Header.read_append suffix (Nat.le_trans (by unfold Header.size; omega) hsize)).trans hread
  have hsize' : 24 + j + k ≤ (bytes ++ suffix).size := by
    rw [ByteArray.size_append]
    omega
  have hjson : jsonChunk (bytes ++ suffix) j = jsonChunk bytes j :=
    extract_append_left bytes suffix 24 (by omega)
  have hbinary : binaryChunk (bytes ++ suffix) j k = binaryChunk bytes j k :=
    extract_append_left bytes suffix (24 + j) hsize
  rw [splitChunks_of_read hread, splitChunks_of_read hread', h.jsonLength_eq, h.binaryLength_eq,
    hjson, hbinary, if_neg (Nat.not_lt.2 hsize), if_neg (Nat.not_lt.2 hsize')]

theorem decode_append {bytes : ByteArray} (h : HoldsChunks bytes j k) (suffix : ByteArray)
    (levels : Nat) : decode (bytes ++ suffix) levels = decode bytes levels := by
  unfold decode
  rw [splitChunks_append h]

theorem exists_holdsChunks_of_decode {bytes : ByteArray} {levels : Nat} {s : Subtree}
    (h : decode bytes levels = .ok s) : ∃ j k, HoldsChunks bytes j k := by
  unfold decode at h
  split at h
  · cases h
  · cases hsplit : splitChunks bytes with
    | error cause =>
      rw [hsplit] at h
      cases h
    | ok chunks =>
      obtain ⟨json, binary⟩ := chunks
      obtain ⟨j, k, hchunks, -⟩ := exists_of_splitChunks hsplit
      exact ⟨j, k, hchunks⟩

/-! ## Bytes cut off -/

/-- What is wrong with bytes of which `found` are there and `declared` should be. -/
def cutError (declared found : Nat) : FormatError :=
  if found < Header.size then .shortHeader found Header.size
  else .shorterThanDeclared declared found

/-- Bytes that end before their chunks do are refused: within the header for the header, and behind
it for the lengths that the header declares. -/
theorem splitChunks_of_cut {front back : ByteArray} (h : HoldsChunks (front ++ back) j k)
    (hcut : front.size < 24 + j + k) (hlimit : 24 + j + k < lengthLimit) :
    splitChunks front = .error (cutError (24 + j + k) front.size) := by
  unfold cutError
  by_cases hshort : front.size < Header.size
  · rw [if_pos hshort]
    unfold splitChunks
    rw [Header.read_of_size_lt hshort]
    rfl
  · have hread := h.read_eq
    rw [Header.read_append back (Nat.not_lt.1 hshort)] at hread
    rw [if_neg hshort, splitChunks_of_read hread, h.jsonLength_eq, h.binaryLength_eq,
      if_neg (by omega), if_neg (by omega), if_pos hcut]

variable {s : Subtree}

theorem exists_holdsChunks_encode (h12 : s.levels ≤ 12) :
    ∃ j k, HoldsChunks s.encode j k ∧ s.encode.size = 24 + j + k := by
  have h30 : s.levels ≤ 30 := by omega
  obtain ⟨p, tiles, content, children, hp⟩ := exists_isPacked h30
  obtain ⟨hsize, hchunks, -⟩ := hp.holdsChunks h30 rfl rfl
  exact ⟨_, _, hchunks, hsize⟩

theorem decode_of_cut (h12 : s.levels ≤ 12) {levels : Nat} (hl1 : 1 ≤ levels) (hl12 : levels ≤ 12)
    {front back : ByteArray} (hfront : front ++ back = s.encode) (hback : 0 < back.size) :
    decode front levels = .error (.format (cutError s.encode.size front.size)) := by
  obtain ⟨j, k, hchunks, hsize⟩ := exists_holdsChunks_encode h12
  have hlimit : s.encode.size < lengthLimit := size_encode_lt_lengthLimit h12
  have htotal : front.size + back.size = s.encode.size := by
    rw [← hfront, ByteArray.size_append]
  rw [← hfront] at hchunks
  rw [decode_eq hl1 hl12, splitChunks_of_cut hchunks (by omega) (by omega), hsize]

/-- **Bytes cut off and bytes added.** The bytes of a subtree without some of the last ones are
refused for their format, at whatever number of levels they are read. Bytes that decode do so with
anything behind them, to the same subtree. -/
theorem decode_of_cut_or_append :
    (∀ (s : Subtree) (levels : Nat) (front back : ByteArray), s.levels ≤ 12 → 1 ≤ levels →
      levels ≤ 12 → front ++ back = s.encode → 0 < back.size →
      decode front levels = .error (.format (cutError s.encode.size front.size))) ∧
    ∀ (bytes suffix : ByteArray) (levels : Nat) (s : Subtree), decode bytes levels = .ok s →
      decode (bytes ++ suffix) levels = .ok s := by
  constructor
  · intro s levels front back h12 hl1 hl12 hfront hback
    exact decode_of_cut h12 hl1 hl12 hfront hback
  · intro bytes suffix levels s h
    obtain ⟨j, k, hchunks⟩ := exists_holdsChunks_of_decode h
    rw [decode_append hchunks, h]

/-- The bitstreams of a quadrant have four bytes. The file that ends after two of them is refused;
with a byte behind it the whole file decodes. -/
theorem decode_of_cut_or_append_quadrant : ∃ front back : ByteArray, ∃ j k : Nat,
    front ++ back = sparseQuadrant.encode ∧ HoldsChunks sparseQuadrant.encode j k ∧
    sparseQuadrant.describe.2.size = 4 ∧ front.size = 24 + j + 2 ∧
    decode front 2 = .error (.format (.shorterThanDeclared (24 + j + k) (24 + j + 2))) ∧
    decode (sparseQuadrant.encode ++ Octets.pack [7]) 2 = .ok sparseQuadrant := by
  have h12 : sparseQuadrant.levels ≤ 12 := by decide
  have h30 : sparseQuadrant.levels ≤ 30 := by decide
  have hdata : sparseQuadrant.describe.2.size = 4 := by decide +kernel
  obtain ⟨p, tiles, content, children, hp⟩ := exists_isPacked h30
  obtain ⟨hsize, hchunks, -⟩ := hp.holdsChunks h30 rfl rfl
  have hpacked : 4 ≤ (paddedData p).size := by
    rw [hp.describe_eq] at hdata
    rw [size_paddedData]
    exact hdata ▸ Nat.le_add_right _ _
  generalize (paddedJson (packedDescription p tiles content children)).length = j at hsize hchunks
  let front := sparseQuadrant.encode.extract 0 (24 + j + 2)
  let back := sparseQuadrant.encode.extract (24 + j + 2) sparseQuadrant.encode.size
  have hfile : front ++ back = sparseQuadrant.encode := by
    have hle : 24 + j + 2 ≤ sparseQuadrant.encode.size := by omega
    simp [front, back, hle]
  have hfront : front.size = 24 + j + 2 := by
    rw [ByteArray.size_extract]
    omega
  have hback : 0 < back.size := by
    rw [ByteArray.size_extract]
    omega
  refine ⟨front, back, j, _, hfile, hchunks, hdata, hfront, ?_, ?_⟩
  · have hcut := decode_of_cut_or_append.1 sparseQuadrant 2 front back h12 (by decide) (by decide)
      hfile hback
    rwa [hsize, hfront, cutError, if_neg (by unfold Header.size; omega)] at hcut
  · exact decode_of_cut_or_append.2 _ _ 2 _ (decode_of_encode rfl (by decide) h12)

end Subtree

end ImplicitTiling
