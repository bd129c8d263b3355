import ImplicitTiling.Proofs.Json.Extent
import ImplicitTiling.Proofs.Subtree.Decoding
import ImplicitTiling.Proofs.Subtree.Packing

/-!
# Decoding undoes encoding

`describes_encode`: the bytes of a subtree describe it. `decode_encode`: so they decode to it, for
every number of levels that a subtree may have.
-/

namespace ImplicitTiling

theorem byteCount_four_pow_le {levels : Nat} (h30 : levels ≤ 30) :
    byteCount (4 ^ levels) ≤ 2 ^ 57 := by
  have hpow : 4 ^ levels ≤ 4 ^ 30 := Nat.pow_le_pow_right (by decide) h30
  unfold byteCount
  omega

namespace Subtree

open Availability

variable {s : Subtree}

theorem length_le (s : Subtree) : s.tiles.length ≤ 4 ^ s.levels ∧
    s.content.length ≤ 4 ^ s.levels ∧ s.children.length ≤ 4 ^ s.levels := by
  have hpyramid := three_mul_pyramidLength s.levels
  refine ⟨?_, ?_, ?_⟩
  · rw [length_tiles]
    omega
  · rw [length_content]
    omega
  · exact Nat.le_of_eq s.children_length

/-- The description of what a packing holds. -/
def packedDescription (p : Packing) (tiles content children : BitSource) : Description where
  buffers := [{ byteLength := p.data.size + paddingFor p.data.size }]
  views := p.views
  tiles := tiles
  content := [content]
  children := children

/-- The packing carries the three availabilities of a subtree, and its numbers fit their fields. -/
structure IsPacked (s : Subtree) (p : Packing) (tiles content children : BitSource) : Prop where
  describe_eq : s.describe = (packedDescription p tiles content children, p.data)
  tiles_carries : p.Carries tiles s.tiles
  content_carries : p.Carries content s.content
  children_carries : p.Carries children s.children
  within : p.Within 3 (3 * byteCount (4 ^ s.levels))
  below : Description.Below lengthLimit (packedDescription p tiles content children)

theorem paddingFor_lt (n : Nat) : paddingFor n < 8 :=
  Nat.mod_lt _ (by decide)

theorem exists_isPacked (h30 : s.levels ≤ 30) :
    ∃ p tiles content children, IsPacked s p tiles content children := by
  obtain ⟨ht, hc, hk⟩ := length_le s
  have hlimit {n : Nat} (hn : n ≤ 4 ^ s.levels) : n < lengthLimit :=
    Nat.lt_of_le_of_lt (Nat.le_trans hn (Nat.pow_le_pow_right (by decide) h30)) (by decide)
  have hrow := byteCount_four_pow_le h30
  have htotal : 3 * byteCount (4 ^ s.levels) + 8 < lengthLimit := by
    unfold lengthLimit
    omega
  let p₁ := (({} : Packing).add s.tiles).1
  let p₂ := (p₁.add s.content).1
  let p₃ := (p₂.add s.children).1
  have h₁ : p₁.Within 1 _ := Packing.within_nil.add (byteCount_mono ht)
  have h₂ : p₂.Within 2 _ := h₁.add (byteCount_mono hc)
  have h₃ : p₃.Within 3 (3 * byteCount (4 ^ s.levels)) := by
    have h := h₂.add (byteCount_mono hk)
    rwa [Nat.zero_add, ← Nat.two_mul, ← Nat.succ_mul] at h
  have g₂ : p₁.Grows p₂ := p₁.grows_add s.content
  have g₃ : p₂.Grows p₃ := p₂.grows_add s.children
  refine ⟨p₃, (({} : Packing).add s.tiles).2, (p₁.add s.content).2, (p₂.add s.children).2, rfl,
    ?_, ?_, ?_, h₃, ?_, h₃.views_below (by omega), ?_, ?_, ?_⟩
  · exact (Packing.carries_add {} s.tiles).of_grows (g₂.trans g₃)
  · exact (Packing.carries_add p₁ s.content).of_grows g₃
  · exact Packing.carries_add p₂ s.children
  · intro b hb
    obtain rfl := List.mem_singleton.1 hb
    have hdata := h₃.data_le
    have hpad := paddingFor_lt p₃.data.size
    show p₃.data.size + paddingFor p₃.data.size < lengthLimit
    omega
  · exact Packing.within_nil.source_below (by decide) (hlimit ht)
  · intro source hsource
    obtain rfl := List.mem_singleton.1 hsource
    exact h₁.source_below (by decide) (hlimit hc)
  · exact h₂.source_below (by decide) (hlimit hk)

/-! ## The chunks -/

theorem holdsChunks_append {json : List UInt8} {binary : ByteArray}
    (hj : json.length < lengthLimit) (hb : binary.size < lengthLimit) {bytes : ByteArray}
    (hbytes : bytes =
      Octets.pack ((Header.ofLengths json.length binary.size).octets ++ json) ++ binary) :
    bytes.size = 24 + json.length + binary.size ∧ HoldsChunks bytes json.length binary.size ∧
      jsonChunk bytes json.length = Octets.pack json ∧
      binaryChunk bytes json.length binary.size = binary := by
  have hread := Header.read_octets (h := Header.ofLengths json.length binary.size) rfl rfl json binary
  rw [← hbytes] at hread
  obtain ⟨-, hmagic, hversion, h0, h4, h8, h16⟩ := Header.read_eq_ok_iff.1 hread
  have hfront : (Octets.pack (Header.ofLengths json.length binary.size).octets).size = 24 := by
    rw [Octets.size_pack, Header.length_octets]
    rfl
  rw [Octets.pack_append] at hbytes
  have hsize : bytes.size = 24 + json.length + binary.size := by
    rw [hbytes, ByteArray.size_append, ByteArray.size_append, hfront, Octets.size_pack]
  refine ⟨hsize, ⟨h0.symm.trans hmagic, h4.symm.trans hversion, ?_, ?_, ?_⟩, ?_, ?_⟩
  · rw [← h8]
    exact Nat.mod_eq_of_lt hj
  · rw [← h16]
    exact Nat.mod_eq_of_lt hb
  · exact Nat.le_of_eq hsize.symm
  · have hjson : (Octets.pack (Header.ofLengths json.length binary.size).octets ++
        Octets.pack json).size = 24 + json.length := by
      rw [ByteArray.size_append, hfront, Octets.size_pack]
    unfold jsonChunk
    rw [hbytes, ← hjson, ByteArray.extract_append_size_left]
    exact ByteArray.extract_append_eq_right hfront.symm ByteArray.size_append
  · unfold binaryChunk
    rw [hbytes]
    apply ByteArray.extract_append_eq_right
    · rw [ByteArray.size_append, hfront, Octets.size_pack]
    · rw [ByteArray.size_append, hfront, Octets.size_pack]

theorem blank_replicate (n : Nat) : Json.Blank (List.replicate n 32) := by
  intro o ho
  rw [List.eq_of_mem_replicate ho]
  rfl

/-- The JSON chunk of a description. -/
def paddedJson (d : Description) : List UInt8 :=
  d.toJson.compact ++ List.replicate (paddingFor d.toJson.compact.length) 32

/-- The binary chunk of a packing. -/
def paddedData (p : Packing) : ByteArray :=
  p.data ++ Octets.pack (List.replicate (paddingFor p.data.size) 0)

theorem length_paddedJson (d : Description) :
    (paddedJson d).length = d.toJson.compact.length + paddingFor d.toJson.compact.length := by
  rw [paddedJson, List.length_append, List.length_replicate]

theorem size_paddedData (p : Packing) :
    (paddedData p).size = p.data.size + paddingFor p.data.size := by
  rw [paddedData, ByteArray.size_append, Octets.size_pack, List.length_replicate]

theorem parse?_paddedJson {bound : Nat} (hbound : bound ≤ lengthLimit) {d : Description}
    (h : Description.Below bound d) : parse? (Octets.pack (paddedJson d)) = some d := by
  have hread : Json.read? (paddedJson d) = some d.toJson :=
    Json.read?_render d.spelled_toJson .compact (blank_replicate _)
  unfold parse?
  rw [Octets.unpack_pack, hread]
  exact Description.ofJson?_toJson hbound h

theorem encode_eq {p : Packing} {d : Description} (h : s.describe = (d, p.data)) :
    s.encode = Octets.pack
      ((Header.ofLengths (paddedJson d).length (paddedData p).size).octets ++ paddedJson d) ++
        paddedData p := by
  unfold encode
  rw [h, length_paddedJson, size_paddedData, paddedJson, paddedData, ← ByteArray.append_assoc,
    ← List.append_assoc]

/-- The JSON chunk is short, and the binary chunk has little more than three rows of the leaves. -/
theorem IsPacked.chunks {p : Packing} {tiles content children : BitSource}
    (hp : IsPacked s p tiles content children) :
    (paddedJson (packedDescription p tiles content children)).length < 1735 ∧
      (paddedData p).size < 3 * byteCount (4 ^ s.levels) + 8 := by
  have htext := Description.length_compact_le hp.below rfl rfl hp.within.views_le
  have hdata := hp.within.data_le
  constructor
  · have := paddingFor_lt (packedDescription p tiles content children).toJson.compact.length
    rw [length_paddedJson]
    omega
  · have := paddingFor_lt p.data.size
    rw [size_paddedData]
    omega

theorem IsPacked.chunks_lt {p : Packing} {tiles content children : BitSource}
    (hp : IsPacked s p tiles content children) (h30 : s.levels ≤ 30) :
    (paddedJson (packedDescription p tiles content children)).length < lengthLimit ∧
      (paddedData p).size < lengthLimit := by
  obtain ⟨hjson, hbinary⟩ := hp.chunks
  have hrow := byteCount_four_pow_le h30
  unfold lengthLimit
  omega

theorem IsPacked.holdsChunks {p : Packing} {tiles content children : BitSource}
    (hp : IsPacked s p tiles content children) (h30 : s.levels ≤ 30) {j k : Nat}
    (hj : (paddedJson (packedDescription p tiles content children)).length = j)
    (hk : (paddedData p).size = k) :
    s.encode.size = 24 + j + k ∧ HoldsChunks s.encode j k ∧
      jsonChunk s.encode j =
        Octets.pack (paddedJson (packedDescription p tiles content children)) ∧
      binaryChunk s.encode j k = paddedData p := by
  subst hj
  subst hk
  obtain ⟨hjson, hbinary⟩ := hp.chunks_lt h30
  exact holdsChunks_append hjson hbinary (encode_eq hp.describe_eq)

theorem IsPacked.parse?_eq {p : Packing} {tiles content children : BitSource}
    (hp : IsPacked s p tiles content children) :
    parse? (Octets.pack (paddedJson (packedDescription p tiles content children))) =
      some (packedDescription p tiles content children) :=
  parse?_paddedJson (Nat.le_refl _) hp.below

theorem size_encode_lt (h12 : s.levels ≤ 12) : s.encode.size < 2 ^ 32 := by
  obtain ⟨p, tiles, content, children, hp⟩ := exists_isPacked (s := s) (by omega)
  obtain ⟨hjson, hbinary⟩ := hp.chunks
  obtain ⟨hsize, -⟩ := hp.holdsChunks (by omega) rfl rfl
  have hpow : 4 ^ s.levels ≤ 4 ^ 12 := Nat.pow_le_pow_right (by decide) h12
  unfold byteCount at hbinary
  omega

theorem size_encode_lt_lengthLimit (h12 : s.levels ≤ 12) : s.encode.size < lengthLimit :=
  Nat.lt_trans (size_encode_lt h12) (by decide)

/-- The bytes of a subtree describe whatever the entries of its description resolve to. -/
theorem IsPacked.describes {p : Packing} {tiles content children : BitSource}
    (hp : IsPacked s p tiles content children) (h30 : s.levels ≤ 30) {levels : Nat}
    {t c k : Nat → Bool} (h : EntriesResolve (packedDescription p tiles content children)
      (paddedData p) levels t c k) : Describes s.encode levels t c k := by
  obtain ⟨-, hchunks, hjson, hbinary⟩ := hp.holdsChunks h30 rfl rfl
  refine ⟨_, _, packedDescription p tiles content children, hchunks, ?_, ?_⟩
  · rw [hjson]
    exact hp.parse?_eq
  · rw [hbinary]
    exact h

/-- The bytes of a subtree describe its bits also to a reader of fewer levels, who wants fewer of
them. -/
theorem describes_encode_of_le (h12 : s.levels ≤ 12) {levels : Nat} (hle : levels ≤ s.levels) :
    s.encode.size < lengthLimit ∧ ∃ tiles content children,
      Describes s.encode levels tiles content children ∧
      HasBits s s.levels tiles content children := by
  have h30 : s.levels ≤ 30 := by omega
  obtain ⟨p, tiles, content, children, hp⟩ := exists_isPacked h30
  have hresolves {source : BitSource} {a : Availability} (h : p.Carries source a) {n : Nat}
      (hn : n ≤ a.length) :=
    h.exists_resolves (d := packedDescription p tiles content children) rfl rfl
      (Nat.le_add_right _ _) (Octets.pack (List.replicate (paddingFor p.data.size) 0))
      (byteCount_mono hn)
  have hpyramid : pyramidLength levels ≤ pyramidLength s.levels := pyramidLength_mono hle
  obtain ⟨t, ht, htiles⟩ := hresolves hp.tiles_carries (length_tiles s ▸ hpyramid)
  obtain ⟨c, hc, hcontent⟩ := hresolves hp.content_carries (length_content s ▸ hpyramid)
  obtain ⟨k, hk, hchildren⟩ := hresolves hp.children_carries
    (s.children_length ▸ Nat.pow_le_pow_right (by decide) hle)
  rw [length_tiles] at htiles
  rw [length_content] at hcontent
  rw [s.children_length] at hchildren
  exact ⟨size_encode_lt_lengthLimit h12, t, c, k, hp.describes h30 ⟨ht, .entry rfl hc, hk⟩,
    rfl, htiles, hcontent, hchildren⟩

/-- **The bytes of a subtree describe it.** -/
theorem describes_encode (h12 : s.levels ≤ 12) :
    s.encode.size < lengthLimit ∧ ∃ tiles content children,
      Describes s.encode s.levels tiles content children ∧
      HasBits s s.levels tiles content children :=
  describes_encode_of_le h12 (Nat.le_refl s.levels)

theorem decode_of_encode {levels : Nat} (hl : s.levels = levels) (h1 : 1 ≤ levels)
    (h12 : levels ≤ 12) : decode s.encode levels = .ok s := by
  subst hl
  obtain ⟨hsize, tiles, content, children, hdescribes, hbits⟩ := describes_encode h12
  obtain ⟨t, ht, hbits'⟩ := decode_of_describes hsize h1 h12 hdescribes
  rw [ht, hbits'.unique hbits]

/-- At whatever number of levels the bytes of a subtree are read, the root is read back. -/
theorem decode_encode_root (h1 : 1 ≤ s.levels) (h12 : s.levels ≤ 12) {levels : Nat}
    (hl1 : 1 ≤ levels) (hl12 : levels ≤ 12) {t : Subtree} (h : decode s.encode levels = .ok t) :
    t.levels = levels ∧ t.tiles.isAvailable = s.tiles.isAvailable := by
  obtain ⟨hsize, tiles, content, children, hdescribes, hbits⟩ := describes_encode h12
  rcases decode_cases hsize hl1 hl12 with ⟨cause, he, -⟩ | ⟨t', tiles', _, _, ht', hdescribes', hbits'⟩
  · cases he.symm.trans h
  · cases ht'.symm.trans h
    refine ⟨hbits'.levels_eq, ?_⟩
    rw [hbits'.isAvailable_eq hl1, hbits.isAvailable_eq h1, hdescribes.tiles_unique hdescribes']

/-- **Decoding undoes encoding.** The bytes of a subtree of up to twelve levels decode to it. -/
theorem decode_encode (s : Subtree) (h1 : 1 ≤ s.levels) (h12 : s.levels ≤ 12) :
    decode s.encode s.levels = .ok s := by
  obtain ⟨hsize, tiles, content, children, hdescribes, hbits⟩ := describes_encode h12
  obtain ⟨t, ht, hbits'⟩ := decode_of_describes hsize h1 h12 hdescribes
  rw [ht, hbits'.unique hbits]

/-- A subtree of one level with a full, an empty and a mixed availability. -/
theorem decode_encode_mixed : ∃ s : Subtree, s.levels = 1 ∧ s.tiles.rows = [bitRow true] ∧
    s.content = .empty 1 .pyramid ∧ s.children.rows = [Bitset.ofIndices 4 [1, 2]] ∧
    decode s.encode s.levels = .ok s := by
  have hroot : Fits .pyramid [bitRow true] := by
    intro i hi
    obtain rfl : i = 0 := Nat.lt_one_iff.1 hi
    rfl
  let s : Subtree := ⟨1, ⟨.pyramid, [bitRow true], hroot⟩, .empty 1 .pyramid,
    ⟨.children, [Bitset.ofIndices 4 [1, 2]], _, 1, rfl, rfl⟩, rfl, rfl, rfl, rfl, rfl, rfl⟩
  have h1 : 1 ≤ s.levels := Nat.le_refl 1
  have h12 : s.levels ≤ 12 := by
    show 1 ≤ 12
    decide
  exact ⟨s, rfl, rfl, rfl, rfl, decode_encode s h1 h12⟩

end Subtree

end ImplicitTiling
