import ImplicitTiling.Proofs.Availability.Positions
import ImplicitTiling.Proofs.Subtree.RoundTrip

/-!
# The layout of an encoded subtree

`LaidOut` says where everything stands in the file of a subtree: the header, the text and its spaces,
and behind them the bits of the mixed availabilities, in order and without gaps, and their zeros.
`laidOut_encode`: encoding writes such a file. Each availability that is packed takes the next view
and the next bytes, and so the description names it (`Packing.Holds.add`).
-/

namespace ImplicitTiling

open Availability
open Subtree (bitFrom)

/-! ## The format -/

/-- From byte `offset` on stand the bits of an availability, one level behind the other and the root
first. What is left of the last byte is clear. -/
structure HoldsBits (bytes : ByteArray) (offset : Nat) (a : Availability) : Prop where
  bit_eq : ∀ i < a.levelCount, ∀ j < (a.row i).size,
    bitFrom bytes offset (a.bitsAbove i + j) = (a.row i).get j
  unused_eq : ∀ k, a.length ≤ k → k < 8 * byteCount a.length → bitFrom bytes offset k = false

/-- The first `stop` bytes of a buffer hold the bits of some availabilities, each where the one
before it ends, and the views say so. -/
inductive PackedInOrder (binary : ByteArray) : List Availability → List BufferView → Nat → Prop
  | nil : PackedInOrder binary [] [] 0
  | snoc {as : List Availability} {views : List BufferView} {stop : Nat}
      (h : PackedInOrder binary as views stop) {a : Availability}
      (bits : HoldsBits binary stop a) :
      PackedInOrder binary (as ++ [a]) (views ++ [⟨0, stop, byteCount a.length⟩])
        (stop + byteCount a.length)

/-- How an entry names an availability with `index` bitstreams before it: by a constant where the
bits are all equal, and otherwise by the next bitstream, with the number of set bits. -/
structure Named (a : Availability) (index : Nat) (source : BitSource) : Prop where
  zero_iff : source = { constant := some 0 } ↔ a.Uniform false
  one_iff : source = { constant := some 1 } ↔ a.Uniform true
  of_mixed : a.Mixed → source = { bitstream := some index, availableCount := some a.setCount }

namespace Subtree

/-- The availabilities that need a bitstream, in the order in which they are packed. -/
def mixed (s : Subtree) : List Availability :=
  [s.tiles, s.content, s.children].filter fun a => a.Mixed

/-- The bytes of a file of a subtree, with the text of its JSON chunk and the description that the
text spells. -/
structure LaidOut (s : Subtree) (bytes : ByteArray) (text : List UInt8) (d : Description)
    (jsonLength binaryLength : Nat) : Prop where
  size_eq : bytes.size = 24 + jsonLength + binaryLength
  header : HoldsChunks bytes jsonLength binaryLength
  json_dvd : 8 ∣ jsonLength
  binary_dvd : 8 ∣ binaryLength
  json_eq : ∃ spaces < 8,
    jsonChunk bytes jsonLength = Octets.pack (text ++ List.replicate spaces 32)
  braces : ∃ members, text = 123 :: members ++ [125]
  spells : Json.read? text = some d.toJson
  reads : Description.ofJson? d.toJson = some d
  buffers_eq : d.buffers = [{ byteLength := binaryLength }]
  tiles : Named s.tiles 0 d.tiles
  content : ∃ source, d.content = [source] ∧
    Named s.content ([s.tiles].countP fun a => a.Mixed) source
  children : Named s.children ([s.tiles, s.content].countP fun a => a.Mixed) d.children
  packed : ∃ stop, PackedInOrder (binaryChunk bytes jsonLength binaryLength) s.mixed d.views stop ∧
    stop ≤ binaryLength ∧ binaryLength < stop + 8 ∧
    ∀ p, stop ≤ p → Octets.byteAt (binaryChunk bytes jsonLength binaryLength) p = 0

end Subtree

/-! ## Packed bits -/

theorem holdsBits_append_right (front : ByteArray) (a : Availability) :
    HoldsBits (front ++ a.toBitset.toBytes) front.size a := by
  have hbit (k : Nat) :
      bitFrom (front ++ a.toBitset.toBytes) front.size k = a.toBitset.get k := by
    have hk : 8 * (k / 8) + k % 8 = k := by omega
    rw [bitFrom, Octets.byteAt_append_right, Bitset.testBit_toBytes _ _ (Nat.mod_lt k (by decide)),
      hk]
  constructor
  · intro i hi j hj
    rw [hbit, get_toBitset hi hj]
  · intro k hk _
    rw [hbit]
    exact Bitset.get_of_le (by rwa [size_toBitset])

theorem HoldsBits.append {bytes : ByteArray} {offset : Nat} {a : Availability}
    (h : HoldsBits bytes offset a) (hle : offset + byteCount a.length ≤ bytes.size)
    (back : ByteArray) : HoldsBits (bytes ++ back) offset a := by
  have hbit {k : Nat} (hk : k < 8 * byteCount a.length) :
      bitFrom (bytes ++ back) offset k = bitFrom bytes offset k := by
    rw [bitFrom, Octets.byteAt_append_left back (by omega), bitFrom]
  constructor
  · intro i hi j hj
    have hlt := bitsAbove_add_lt hi hj
    rw [hbit (by unfold byteCount; omega), h.bit_eq i hi j hj]
  · intro k hk hk8
    rw [hbit hk8, h.unused_eq k hk hk8]

namespace PackedInOrder

variable {binary : ByteArray} {as : List Availability} {views : List BufferView} {stop : Nat}

theorem length_eq (h : PackedInOrder binary as views stop) : views.length = as.length := by
  induction h with
  | nil => rfl
  | snoc h bits ih => rw [List.length_append, List.length_append, ih]; rfl

theorem append (h : PackedInOrder binary as views stop) (hle : stop ≤ binary.size)
    (back : ByteArray) : PackedInOrder (binary ++ back) as views stop := by
  induction h with
  | nil => exact .nil
  | snoc h bits ih => exact .snoc (ih (by omega)) (bits.append hle back)

end PackedInOrder

/-! ## What packing adds -/

namespace Packing

variable {p : Packing} {a : Availability} {as : List Availability}

theorem add_of_empty (p : Packing) (h : a.Uniform false) :
    p.add a = (p, { constant := some 0 }) := by
  unfold add shape
  rw [if_pos (isEmpty_iff_uniform.2 h)]

theorem add_of_full (p : Packing) (hne : ¬ a.Uniform false) (h : a.Uniform true) :
    p.add a = (p, { constant := some 1 }) := by
  unfold add shape
  rw [if_neg fun he => hne (isEmpty_iff_uniform.1 he), if_pos (isFull_iff_uniform.2 h)]

theorem add_of_mixed (p : Packing) (h : a.Mixed) :
    p.add a = ({ data := p.data ++ a.toBitset.toBytes
                 views := p.views ++ [⟨0, p.data.size, byteCount a.length⟩] },
      { bitstream := some p.views.length, availableCount := some a.setCount }) := by
  unfold add shape
  rw [if_neg fun he => h.1 (isEmpty_iff_uniform.1 he),
    if_neg fun hf => h.2 (isFull_iff_uniform.1 hf), ← count_toBitset, ← size_toBitset,
    ← Bitset.size_toBytes]

/-- The packing holds the bits of some availabilities and nothing else. -/
def Holds (p : Packing) (as : List Availability) : Prop :=
  PackedInOrder p.data as p.views p.data.size

theorem holds_nil : ({} : Packing).Holds [] :=
  .nil

/-- **One availability more.** A mixed one is packed behind the others, any other changes nothing,
and its entry names it. -/
theorem Holds.add (h : p.Holds as) (hpos : 0 < a.length) :
    (p.add a).1.Holds (as ++ [a].filter fun a => a.Mixed) ∧
      Named a as.length (p.add a).2 := by
  by_cases hempty : a.Uniform false
  · have hfull : ¬ a.Uniform true := fun hfull => nomatch hempty.eq hpos hfull
    have hfilter : ([a].filter fun a => a.Mixed) = [] := by simp [Mixed, hempty]
    rw [add_of_empty p hempty, hfilter, List.append_nil]
    exact ⟨h, ⟨fun _ => hempty, fun _ => rfl⟩, ⟨nofun, (absurd · hfull)⟩, fun hm => absurd hempty hm.1⟩
  · by_cases hfull : a.Uniform true
    · have hfilter : ([a].filter fun a => a.Mixed) = [] := by simp [Mixed, hfull]
      rw [add_of_full p hempty hfull, hfilter, List.append_nil]
      exact ⟨h, ⟨nofun, (absurd · hempty)⟩, ⟨fun _ => hfull, fun _ => rfl⟩,
        fun hm => absurd hfull hm.2⟩
    · have hmixed : a.Mixed := ⟨hempty, hfull⟩
      have hfilter : ([a].filter fun a => a.Mixed) = [a] := by simp [hmixed]
      have hsize : (p.data ++ a.toBitset.toBytes).size = p.data.size + byteCount a.length := by
        rw [ByteArray.size_append, Bitset.size_toBytes, size_toBitset]
      rw [add_of_mixed p hmixed, hfilter]
      constructor
      · show PackedInOrder (p.data ++ a.toBitset.toBytes) _ _ (p.data ++ a.toBitset.toBytes).size
        rw [hsize]
        exact .snoc (h.append (Nat.le_refl _) _) (holdsBits_append_right p.data a)
      · refine ⟨⟨nofun, (absurd · hempty)⟩, ⟨nofun, (absurd · hfull)⟩, fun _ => ?_⟩
        rw [h.length_eq]

end Packing

namespace Subtree

variable {s : Subtree}

/-! ## Padding -/

theorem dvd_add_paddingFor (n : Nat) : 8 ∣ n + paddingFor n := by
  unfold paddingFor
  omega

theorem byteAt_append_zeros (front : ByteArray) (n : Nat) {p : Nat} (hp : front.size ≤ p) :
    Octets.byteAt (front ++ Octets.pack (List.replicate n 0)) p = 0 := by
  obtain ⟨q, rfl⟩ := Nat.exists_eq_add_of_le hp
  rw [Octets.byteAt_append_right]
  by_cases hq : q < n
  · obtain ⟨m, rfl⟩ := Nat.exists_eq_add_of_lt hq
    have hsplit : List.replicate (q + m + 1) (0 : UInt8) =
        List.replicate q 0 ++ 0 :: List.replicate m 0 := by
      rw [Nat.add_assoc, ← List.replicate_append_replicate, List.replicate_succ]
    have hbyte := Octets.byteAt_pack_append (List.replicate q 0) 0 (List.replicate m 0)
    rwa [← hsplit, List.length_replicate] at hbyte
  · exact Octets.byteAt_of_ge (by rw [Octets.size_pack, List.length_replicate]; omega)

/-! ## The file -/

theorem length_pos_of_levels (h1 : 1 ≤ s.levels) :
    0 < s.tiles.length ∧ 0 < s.content.length ∧ 0 < s.children.length := by
  have hpyramid : 0 < pyramidLength s.levels := pyramidLength_mono h1
  rw [length_tiles, length_content, s.children_length]
  exact ⟨hpyramid, hpyramid, Nat.pow_pos (by decide)⟩

/-- What is packed of a subtree, and how its entries name it. -/
theorem describe_holds (h1 : 1 ≤ s.levels) {p : Packing} {tiles content children : BitSource}
    (h : s.describe = (packedDescription p tiles content children, p.data)) :
    p.Holds s.mixed ∧ Named s.tiles 0 tiles ∧
      Named s.content ([s.tiles].countP fun a => a.Mixed) content ∧
      Named s.children ([s.tiles, s.content].countP fun a => a.Mixed) children := by
  obtain ⟨ht, hc, hk⟩ := length_pos_of_levels h1
  obtain ⟨hold₁, htiles⟩ := Packing.holds_nil.add ht
  obtain ⟨hold₂, hcontent⟩ := hold₁.add hc
  obtain ⟨hold₃, hchildren⟩ := hold₂.add hk
  obtain ⟨hd, hdata⟩ := Prod.mk.inj h
  obtain ⟨-, hviews, rfl, hcontent', rfl⟩ := Description.mk.inj hd
  obtain rfl := List.singleton_inj.1 hcontent'
  refine ⟨?_, htiles, ?_, ?_⟩
  · unfold Packing.Holds
    rw [← hviews, ← hdata, mixed, show [s.tiles, s.content, s.children] =
      [s.tiles] ++ [s.content] ++ [s.children] from rfl, List.filter_append, List.filter_append]
    exact hold₃
  · rw [List.countP_eq_length_filter]
    exact hcontent
  · rw [List.countP_eq_length_filter, show [s.tiles, s.content] = [s.tiles] ++ [s.content] from rfl,
      List.filter_append]
    exact hchildren

/-- Equal bytes name availabilities by the same constants, whatever the numbers of levels. -/
theorem uniform_iff_of_encode_eq {t : Subtree} (hs1 : 1 ≤ s.levels) (hs30 : s.levels ≤ 30)
    (ht1 : 1 ≤ t.levels) (ht30 : t.levels ≤ 30) (h : s.encode = t.encode) (v : Bool) :
    (s.tiles.Uniform v ↔ t.tiles.Uniform v) ∧ (s.children.Uniform v ↔ t.children.Uniform v) := by
  obtain ⟨p, tiles, content, children, hp⟩ := exists_isPacked hs30
  obtain ⟨p', tiles', content', children', hp'⟩ := exists_isPacked ht30
  obtain ⟨-, hchunks, hjson, -⟩ := hp.holdsChunks hs30 rfl rfl
  obtain ⟨-, hchunks', hjson', -⟩ := hp'.holdsChunks ht30 rfl rfl
  rw [← h] at hchunks' hjson'
  obtain ⟨hj, -⟩ := hchunks.lengths_unique hchunks'
  have hparse := hp.parse?_eq
  rw [← hjson, hj, hjson', hp'.parse?_eq] at hparse
  have hd := Option.some.inj hparse
  obtain rfl : tiles' = tiles := congrArg Description.tiles hd
  obtain rfl : children' = children := congrArg Description.children hd
  obtain ⟨-, htiles, -, hchildren⟩ := describe_holds hs1 hp.describe_eq
  obtain ⟨-, htiles', -, hchildren'⟩ := describe_holds ht1 hp'.describe_eq
  cases v with
  | false =>
    rw [← htiles.zero_iff, htiles'.zero_iff, ← hchildren.zero_iff, hchildren'.zero_iff]
    exact ⟨Iff.rfl, Iff.rfl⟩
  | true =>
    rw [← htiles.one_iff, htiles'.one_iff, ← hchildren.one_iff, hchildren'.one_iff]
    exact ⟨Iff.rfl, Iff.rfl⟩

theorem exists_compact_braces (d : Description) :
    ∃ members, d.toJson.compact = 123 :: members ++ [125] :=
  ⟨_, rfl⟩

/-- **The layout.** The bytes of a subtree of one to thirty levels are a file of it. -/
theorem laidOut_encode (s : Subtree) (h1 : 1 ≤ s.levels) (h30 : s.levels ≤ 30) :
    ∃ text d jsonLength binaryLength, LaidOut s s.encode text d jsonLength binaryLength := by
  obtain ⟨p, tiles, content, children, hp⟩ := exists_isPacked h30
  let d := packedDescription p tiles content children
  obtain ⟨hsize, hchunks, hjson, hbinary⟩ := hp.holdsChunks h30 rfl rfl
  obtain ⟨hholds, htiles, hcontent, hchildren⟩ := describe_holds h1 hp.describe_eq
  have hread : Json.read? d.toJson.compact = some d.toJson := by
    have h := Json.read?_render d.spelled_toJson .compact (blank_replicate 0)
    rwa [List.replicate_zero, List.append_nil] at h
  refine ⟨d.toJson.compact, d, _, _, hsize, hchunks, ?_, ?_, ?_, exists_compact_braces d, hread,
    Description.ofJson?_toJson (Nat.le_refl _) hp.below, ?_, htiles, ⟨content, rfl, hcontent⟩,
    hchildren, p.data.size, ?_, ?_, ?_, ?_⟩
  · rw [length_paddedJson]
    exact dvd_add_paddingFor _
  · rw [size_paddedData]
    exact dvd_add_paddingFor _
  · exact ⟨_, paddingFor_lt _, hjson⟩
  · rw [size_paddedData]
    rfl
  · rw [hbinary]
    exact hholds.append (Nat.le_refl _) _
  · rw [size_paddedData]
    exact Nat.le_add_right _ _
  · have := paddingFor_lt p.data.size
    rw [size_paddedData]
    omega
  · intro q hq
    rw [hbinary]
    exact byteAt_append_zeros p.data _ hq

/-- A subtree of two levels whose content is constant, so that the child bits come right behind the
tile bits. -/
theorem laidOut_encode_two_mixed : ∃ (s : Subtree) (text : List UInt8) (d : Description)
    (jsonLength binaryLength : Nat), s.levels = 2 ∧ s.mixed = [s.tiles, s.children] ∧
      LaidOut s s.encode text d jsonLength binaryLength := by
  let s : Subtree := ⟨2,
    ⟨.pyramid, [bitRow true, Bitset.ofIndices 4 [1, 2]], fits_of_misfit?_eq_none rfl⟩,
    .empty 2 .pyramid, ⟨.children, [Bitset.ofIndices 16 [4, 11]], _, 2, rfl, rfl⟩, rfl, rfl, rfl, rfl,
    rfl, rfl⟩
  have h1 : 1 ≤ s.levels := by
    show 1 ≤ 2
    decide
  have h30 : s.levels ≤ 30 := by
    show 2 ≤ 30
    decide
  have hmixed : s.mixed = [s.tiles, s.children] := by
    decide
  obtain ⟨text, d, jsonLength, binaryLength, h⟩ := laidOut_encode s h1 h30
  exact ⟨s, text, d, jsonLength, binaryLength, rfl, hmixed, h⟩

end Subtree

end ImplicitTiling
