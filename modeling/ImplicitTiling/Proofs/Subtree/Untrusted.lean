import ImplicitTiling.Proofs.Subtree.Joining
import ImplicitTiling.Proofs.Subtree.RoundTrip

/-!
# Decoding arbitrary bytes

`decode_untrusted`: whatever the bytes are, decoding them fails for their format or gives a whole
subtree of the wanted number of levels, and it cuts no run of bytes or bits out of a shorter one
(`CutsWithin`). The bytes that decode are those that describe a subtree.
-/

namespace ImplicitTiling.Subtree

open Availability

/-- The outcome of reading a view whose bytes were cut out of the binary chunk. -/
def ReachesCut : Except FormatError Bitset → Prop
  | .ok _ => True
  | .error (.viewTooShort _ _ _) => True
  | .error _ => False

/-- Every run of bytes or bits that decoding cuts out begins and ends within what it is cut from. -/
structure CutsWithin (bytes : ByteArray) : Prop where
  /-- The four words of the header, where they are looked at. -/
  header : (∀ found wanted, Header.read bytes ≠ .error (.shortHeader found wanted)) →
    24 ≤ bytes.size
  /-- The two chunks, one behind the other. -/
  chunks : ∀ json binary, splitChunks bytes = .ok (json, binary) → ∃ j k,
    24 + j + k ≤ bytes.size ∧ json = bytes.extract 24 (24 + j) ∧ json.size = j ∧
      binary = bytes.extract (24 + j) (24 + j + k) ∧ binary.size = k ∧
      j = (Octets.wordAt bytes 8 8).toNat ∧ k = (Octets.wordAt bytes 16 8).toNat
  /-- The bytes of a view. -/
  view : ∀ d binary index n, ReachesCut (viewedBits d binary index n) →
    ∃ w, d.views[index]? = some w ∧ w.byteOffset + w.byteLength ≤ binary.size
  /-- The bytes that `n` bits are unpacked from. -/
  unpacked : ∀ bytes n bits, Bitset.ofBytes? bytes n = some bits → byteCount n ≤ bytes.size
  /-- The rows of a pyramid, which are cut out of its bits as soon as their number is right. -/
  rows : ∀ (bits : Bitset) length levels, bits.size = length →
    pyramidLevels? length = some levels → ∃ a, ofBitset bits length .pyramid = .ok a ∧
      a.levelCount = levels ∧ ∀ i < levels,
        a.row i = bits.slice (pyramidLength i) (pyramidLength (i + 1)) ∧
        pyramidLength i ≤ pyramidLength (i + 1) ∧ pyramidLength (i + 1) ≤ bits.size

theorem exists_of_reachesCut {d : Description} {binary : ByteArray} {index n : Nat}
    (h : ReachesCut (viewedBits d binary index n)) : ∃ w, d.views[index]? = some w ∧
      w.byteOffset + w.byteLength ≤ binary.size := by
  cases hw : d.views[index]? with
  | none =>
    unfold viewedBits at h
    rw [hw] at h
    exact h.elim
  | some w =>
    cases hbuffer : d.buffers[w.buffer]? with
    | none =>
      unfold viewedBits at h
      rw [hw] at h
      dsimp only at h
      rw [hbuffer] at h
      exact h.elim
    | some buffer =>
      by_cases h0 : w.buffer = 0
      · rw [h0] at hbuffer
        rw [viewedBits_of_view hw hbuffer h0] at h
        split at h
        · exact h.elim
        · split at h
          · exact h.elim
          · next hstop => exact ⟨w, rfl, Nat.not_lt.1 (not_or.1 hstop).2⟩
      · unfold viewedBits at h
        rw [hw] at h
        dsimp only at h
        rw [hbuffer] at h
        dsimp only at h
        rw [if_pos h0] at h
        exact h.elim

theorem cutsWithin (bytes : ByteArray) : CutsWithin bytes where
  header h := by
    unfold Header.read at h
    by_cases hsize : bytes.size < Header.size
    · rw [if_pos hsize] at h
      exact absurd rfl (h bytes.size Header.size)
    · exact Nat.not_lt.1 hsize
  chunks json binary h := by
    obtain ⟨j, k, hchunks, rfl, rfl⟩ := exists_of_splitChunks h
    exact ⟨j, k, hchunks.size_le, rfl, hchunks.size_jsonChunk, rfl, hchunks.size_binaryChunk,
      hchunks.jsonLength_eq.symm, hchunks.binaryLength_eq.symm⟩
  view _ _ _ _ h := exists_of_reachesCut h
  unpacked _ _ _ h := (Bitset.ofBytes?_eq_some_iff.1 h).1
  rows bits length levels hsize hlevels := by
    subst hsize
    obtain ⟨h1, hlength⟩ := pyramidLevels?_eq_some_iff.1 hlevels
    obtain ⟨a, ha, -, hcount, hrow⟩ := ofBitset_pyramid bits h1 hlength
    rw [← hlength] at ha
    refine ⟨a, ha, hcount, fun i hi => ⟨hrow i hi, pyramidLength_mono (Nat.le_succ i), ?_⟩⟩
    rw [hlength]
    exact pyramidLength_mono hi

/-- Bytes are refused for their format or decode to a subtree of the wanted number of levels. -/
theorem decode_format_or_ok (bytes : ByteArray) {levels : Nat} (h1 : 1 ≤ levels)
    (h12 : levels ≤ 12) :
    (∃ cause, decode bytes levels = .error (.format cause)) ∨
      ∃ s, decode bytes levels = .ok s ∧ s.levels = levels := by
  rw [decode_eq h1 h12]
  cases splitChunks bytes with
  | error cause => exact .inl ⟨cause, rfl⟩
  | ok chunks =>
    obtain ⟨json, binary⟩ := chunks
    dsimp only
    cases hparse : parse? json with
    | none => exact .inl ⟨_, rfl⟩
    | some d =>
      rcases ofDescription_cases (byteLength_lt_of_parse? hparse) binary h1 with
        ⟨cause, he, -⟩ | ⟨s, _, _, _, hs, -, hbits⟩
      · exact .inl ⟨cause, he⟩
      · exact .inr ⟨s, hs, hbits.levels_eq⟩

theorem ofParts_self (s : Subtree) : ofParts s.tiles s.content s.children s.levels = .ok s :=
  ofParts_eq_ok s.tiles_topology s.content_topology s.children_topology s.tiles_levels
    s.content_levels s.children_length

/-- **Decoding arbitrary bytes.** They are refused for their format, or they decode to a subtree of
the wanted number of levels, which is what its parts make up. They decode exactly if they describe a
subtree, and then to the bits that they describe; `ContentOf` says which entry counts for content.
Nothing is cut out of something shorter. -/
theorem decode_untrusted (bytes : ByteArray) (levels : Nat) (h1 : 1 ≤ levels) (h12 : levels ≤ 12) :
    ((∃ cause, decode bytes levels = .error (.format cause)) ∨
      ∃ s, decode bytes levels = .ok s ∧ s.levels = levels ∧
        ofParts s.tiles s.content s.children levels = .ok s) ∧
    (bytes.size < lengthLimit →
      ((∃ s, decode bytes levels = .ok s) ↔
        ∃ tiles content children, Describes bytes levels tiles content children) ∧
      ∀ s tiles content children, decode bytes levels = .ok s →
        Describes bytes levels tiles content children →
        HasBits s levels tiles content children) ∧
    (∀ v d, Description.ofJson? v = some d → ∃ buffers views tiles content children,
      v.fields? ["buffers", "bufferViews", "tileAvailability", "contentAvailability",
        "childSubtreeAvailability"] = some [buffers, views, tiles, content, children] ∧
      Description.ContentOf content d.content) ∧
    CutsWithin bytes := by
  refine ⟨?_, ?_, fun v d hd => (Description.of_ofJson?_eq_some hd).2, cutsWithin bytes⟩
  · rcases decode_format_or_ok bytes h1 h12 with he | ⟨s, hs, rfl⟩
    · exact .inl he
    · exact .inr ⟨s, hs, rfl, ofParts_self s⟩
  · intro hb
    constructor
    · constructor
      · rintro ⟨s, hs⟩
        rcases decode_cases hb h1 h12 with ⟨cause, he, -⟩ | ⟨_, t, c, k, -, hdescribes, -⟩
        · rw [hs] at he
          cases he
        · exact ⟨t, c, k, hdescribes⟩
      · rintro ⟨t, c, k, hdescribes⟩
        obtain ⟨s, hs, -⟩ := decode_of_describes hb h1 h12 hdescribes
        exact ⟨s, hs⟩
    · intro s t c k hs hdescribes
      obtain ⟨s', hs', hbits⟩ := decode_of_describes hb h1 h12 hdescribes
      rw [hs] at hs'
      cases hs'
      exact hbits

/-- A description whose view lies behind the binary chunk, if that is empty. -/
def danglingDescription : Description where
  buffers := [{ byteLength := 8 }]
  views := [⟨0, 1, 0⟩]
  tiles := { bitstream := some 0 }
  content := []
  children := { constant := some 0 }

/-- A file of this description without any byte in its binary chunk. -/
def danglingFile : ByteArray :=
  let json := paddedJson danglingDescription
  Octets.pack ((Header.ofLengths json.length 0).octets ++ json)

theorem below_danglingDescription : Description.Below lengthLimit danglingDescription := by
  constructor <;> simp [danglingDescription, lengthLimit]
  · exact ⟨by simp, by simp, by simp⟩
  · exact ⟨by simp, by simp, by simp⟩
  · exact ⟨by simp, by simp, by simp⟩

theorem holdsChunks_danglingFile : danglingFile.size < lengthLimit ∧
    ∃ j, HoldsChunks danglingFile j 0 ∧
      parse? (jsonChunk danglingFile j) = some danglingDescription ∧
      binaryChunk danglingFile j 0 = .empty := by
  have hlength : 24 + (paddedJson danglingDescription).length < lengthLimit := by decide +kernel
  obtain ⟨hsize, hchunks, hjson, hbinary⟩ :=
    @holdsChunks_append (paddedJson danglingDescription) .empty (Nat.lt_of_add_left_lt hlength)
      (by decide) danglingFile (ByteArray.append_empty ..).symm
  rw [ByteArray.size_empty, Nat.add_zero] at hsize
  refine ⟨hsize.trans_lt hlength, _, hchunks, ?_, hbinary⟩
  rw [hjson]
  exact parse?_paddedJson (Nat.le_refl _) below_danglingDescription

theorem Shows.reachesCut {d : Description} {binary : ByteArray} {n index : Nat} {w : BufferView}
    (h : Shows d binary n index w) (hd : ∀ buffer ∈ d.buffers, buffer.byteLength < lengthLimit) :
    ReachesCut (viewedBits d binary index n) := by
  obtain ⟨bits, hsize, hget⟩ := Bitset.exists_get n (bitFrom binary w.byteOffset)
  rw [(viewedBits_eq_ok_iff hd).2 ⟨w, h, hsize, hget⟩]
  trivial

/-- The tiles of a quadrant are read from a view that ends within the binary chunk. A file whose view
lies behind that chunk is refused, and nothing is cut out there. -/
theorem decode_untrusted_two_views :
    (decode sparseQuadrant.encode 2 = .ok sparseQuadrant ∧ ∃ j k d index w,
      HoldsChunks sparseQuadrant.encode j k ∧ parse? (jsonChunk sparseQuadrant.encode j) = some d ∧
      d.tiles.bitstream = some index ∧ d.views[index]? = some w ∧
      w.byteOffset + w.byteLength ≤ k) ∧
    (∃ cause, decode danglingFile 1 = .error (.format cause)) ∧
    ¬ ReachesCut (viewedBits danglingDescription .empty 0 1) := by
  have h12 : sparseQuadrant.levels ≤ 12 := by decide
  refine ⟨?_, ?_⟩
  · obtain ⟨-, hiff, -, hcuts⟩ :=
      decode_untrusted sparseQuadrant.encode 2 (by decide) (by decide)
    obtain ⟨hsize, t, c, k, hdescribes, hbits⟩ := describes_encode h12
    obtain ⟨hdecodes, hunique⟩ := hiff hsize
    obtain ⟨s, hs⟩ := hdecodes.2 ⟨t, c, k, hdescribes⟩
    obtain rfl := (hunique s t c k hs hdescribes).unique hbits
    refine ⟨hs, ?_⟩
    obtain ⟨j, n, d, hchunks, hparse, hentries⟩ := hdescribes
    cases hentries.tiles with
    | bitstream hindex hshows =>
      obtain ⟨w, hw, hle⟩ := hcuts.view _ _ _ _ (hshows.reachesCut (byteLength_lt_of_parse? hparse))
      rw [hchunks.size_binaryChunk] at hle
      exact ⟨j, n, d, _, w, hchunks, hparse, hindex, hw, hle⟩
    | constant v hnone hconstant =>
      -- The root is there and the first tile below it is not.
      have hroot := hbits.tiles_eq 0 (by decide)
      have hbelow := hbits.tiles_eq 1 (by decide)
      rw [← hbelow] at hroot
      exact absurd hroot (by decide)
  · obtain ⟨hfails, hiff, -, hcuts⟩ := decode_untrusted danglingFile 1 (by decide) (by decide)
    obtain ⟨hsize, j, hchunks, hparse, hempty⟩ := holdsChunks_danglingFile
    have hcut : ¬ ReachesCut (viewedBits danglingDescription .empty 0 1) := by
      intro h
      obtain ⟨w, hw, hle⟩ := hcuts.view _ _ _ _ h
      obtain rfl : (⟨0, 1, 0⟩ : BufferView) = w := Option.some.inj hw
      exact absurd hle (by decide)
    refine ⟨?_, hcut⟩
    rcases hfails with hcause | ⟨s, hs, -⟩
    · exact hcause
    · obtain ⟨t, c, k, j', n, d, hchunks', hparse', hentries⟩ := (hiff hsize).1.1 ⟨s, hs⟩
      obtain ⟨rfl, rfl⟩ := hchunks.lengths_unique hchunks'
      obtain rfl := Option.some.inj (hparse.symm.trans hparse')
      rw [hempty] at hentries
      cases hentries.tiles with
      | bitstream hindex hshows =>
        obtain rfl := Option.some.inj hindex
        exact absurd (hshows.reachesCut (byteLength_lt_of_parse? hparse)) hcut
      | constant v hnone _ => cases hnone

end ImplicitTiling.Subtree
