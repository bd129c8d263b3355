import ImplicitTiling.Proofs.Subtree.Chunks
import ImplicitTiling.Proofs.Subtree.Description
import ImplicitTiling.Proofs.Subtree.Merging
import ImplicitTiling.Proofs.Subtree.Resolution

/-!
# What bytes decode to

`Describes` says which byte strings describe a subtree, and with which bits.

* `decode_cases`: bytes that describe none are malformed, bytes that do decode to the subtree of
  those bits.
* `decode_of_describes`: what bytes decode to follows from the bits they describe.
-/

namespace ImplicitTiling.Subtree

open Availability

/-- The content entry resolves to the bits `f`; without an entry no tile has content. -/
inductive ResolvesContent (d : Description) (binary : ByteArray) (levels : Nat) :
    (Nat → Bool) → Prop
  | entry {source : BitSource} {f : Nat → Bool} (h : d.content.head? = some source)
      (hf : Resolves d binary (pyramidLength levels) source f) : ResolvesContent d binary levels f
  | absent (h : d.content = []) : ResolvesContent d binary levels fun _ => false

/-- The three entries of a description resolve to the given bits. -/
structure EntriesResolve (d : Description) (binary : ByteArray) (levels : Nat)
    (tiles content children : Nat → Bool) : Prop where
  tiles : Resolves d binary (pyramidLength levels) d.tiles tiles
  content : ResolvesContent d binary levels content
  children : Resolves d binary (4 ^ levels) d.children children

/-- The description in the JSON chunk. -/
def parse? (json : ByteArray) : Option Description :=
  (Json.read? (Octets.unpack json)).bind Description.ofJson?

/-- The bytes hold both chunks, the JSON chunk is the text of a description, and its entries resolve
to the given bits. -/
def Describes (bytes : ByteArray) (levels : Nat) (tiles content children : Nat → Bool) : Prop :=
  ∃ j k d, HoldsChunks bytes j k ∧
    parse? (jsonChunk bytes j) = some d ∧
    EntriesResolve d (binaryChunk bytes j k) levels tiles content children

/-- The subtree has `levels` levels and the given bits, all levels of a pyramid in one row. -/
structure HasBits (s : Subtree) (levels : Nat) (tiles content children : Nat → Bool) : Prop where
  levels_eq : s.levels = levels
  tiles_eq : ∀ k < pyramidLength levels, s.tiles.toBitset.get k = tiles k
  content_eq : ∀ k < pyramidLength levels, s.content.toBitset.get k = content k
  children_eq : ∀ k < 4 ^ levels, s.children.toBitset.get k = children k

theorem eq_of_toBitset_get {a b : Availability} {n : Nat} {f : Nat → Bool}
    (ht : a.topology = b.topology) (ha : a.length = n) (hb : b.length = n)
    (haf : ∀ k < n, a.toBitset.get k = f k) (hbf : ∀ k < n, b.toBitset.get k = f k) : a = b := by
  apply ext_toBitset ht
  have hsa : a.toBitset.size = n := (size_toBitset a).trans ha
  have hsb : b.toBitset.size = n := (size_toBitset b).trans hb
  apply Bitset.ext_get (hsa.trans hsb.symm)
  intro k
  by_cases hk : k < n
  · rw [haf k hk, hbf k hk]
  · rw [Bitset.get_of_le (by omega), Bitset.get_of_le (by omega)]

theorem length_tiles (s : Subtree) : s.tiles.length = pyramidLength s.levels := by
  rw [length_pyramid s.tiles_topology, s.tiles_levels]

theorem length_content (s : Subtree) : s.content.length = pyramidLength s.levels := by
  rw [length_pyramid s.content_topology, s.content_levels]

/-- Subtrees of the same bits are equal. -/
theorem HasBits.unique {s t : Subtree} {levels : Nat} {tiles content children : Nat → Bool}
    (hs : HasBits s levels tiles content children) (ht : HasBits t levels tiles content children) :
    s = t := by
  obtain ⟨rfl, hst, hsc, hsk⟩ := hs
  obtain ⟨hl, htt, htc, htk⟩ := ht
  apply levels_ext
  · exact eq_of_toBitset_get (s.tiles_topology.trans t.tiles_topology.symm) s.length_tiles
      (hl ▸ t.length_tiles) hst htt
  · exact eq_of_toBitset_get (s.content_topology.trans t.content_topology.symm) s.length_content
      (hl ▸ t.length_content) hsc htc
  · exact eq_of_toBitset_get (s.children_topology.trans t.children_topology.symm)
      s.children_length (hl ▸ t.children_length) hsk htk

theorem ResolvesContent.unique {d : Description} {binary : ByteArray} {levels : Nat}
    {f g : Nat → Bool} (hf : ResolvesContent d binary levels f)
    (hg : ResolvesContent d binary levels g) : f = g := by
  cases hf with
  | entry h hf =>
    cases hg with
    | entry h' hg =>
      cases h.symm.trans h'
      exact hf.unique hg
    | absent h' =>
      rw [h'] at h
      cases h
  | absent h =>
    cases hg with
    | entry h' hg =>
      rw [h] at h'
      cases h'
    | absent h' => rfl

/-! ## From a description -/

theorem toBitset_get_empty (levels k : Nat) :
    (Availability.empty levels .pyramid).toBitset.get k = false := by
  refine (isEmpty_iff _).1 ?_ k
  apply isEmpty_iff_rows.2
  intro i j
  exact get_row_empty levels .pyramid i j

variable {d : Description} {binary : ByteArray}

/-- The availability of the content entry. -/
def contentAvailability (d : Description) (binary : ByteArray) (levels : Nat) :
    Except Error Availability :=
  match d.content.head? with
  | some source => sourceAvailability d binary source (bitCount levels .pyramid) .pyramid
  | none => .ok (.empty levels .pyramid)

theorem ofDescription_eq (levels : Nat) :
    ofDescription d binary levels = (do
      let tiles ← sourceAvailability d binary d.tiles (bitCount levels .pyramid) .pyramid
      let content ← contentAvailability d binary levels
      let children ← sourceAvailability d binary d.children (bitCount levels .children) .children
      (ofParts tiles content children levels).mapError .precondition) := by
  unfold ofDescription contentAvailability
  cases d.content.head? <;> rfl

theorem contentAvailability_cases (hd : ∀ buffer ∈ d.buffers, buffer.byteLength < lengthLimit)
    (binary : ByteArray) {levels : Nat} (h1 : 1 ≤ levels) :
    (∃ cause, contentAvailability d binary levels = .error (.format cause) ∧
      ∀ f, ¬ ResolvesContent d binary levels f) ∨
    ∃ a f, contentAvailability d binary levels = .ok a ∧ ResolvesContent d binary levels f ∧
      a.topology = .pyramid ∧ a.length = pyramidLength levels ∧
      ∀ k < pyramidLength levels, a.toBitset.get k = f k := by
  unfold contentAvailability
  cases hhead : d.content.head? with
  | none =>
    refine .inr ⟨_, _, rfl, .absent (List.head?_eq_none_iff.1 hhead), rfl, ?_, ?_⟩
    · rw [length_pyramid (topology_empty levels .pyramid), levelCount_empty_pyramid]
    · intro k hk
      exact toBitset_get_empty levels k
  | some source =>
    rcases sourceAvailability_cases hd binary source h1 .pyramid with
      ⟨cause, he, hno⟩ | ⟨a, f, ha, hf⟩
    · refine .inl ⟨cause, he, ?_⟩
      intro f hf
      cases hf with
      | entry h hf =>
        cases hhead.symm.trans h
        exact hno f hf
      | absent h =>
        rw [h] at hhead
        cases hhead
    · exact .inr ⟨a, f, ha, .entry hhead hf.resolves, hf.topology_eq, hf.length_eq, hf.get_eq⟩

/-- A description either is malformed or gives the subtree with the bits that its entries stand
for. -/
theorem ofDescription_cases (hd : ∀ buffer ∈ d.buffers, buffer.byteLength < lengthLimit)
    (binary : ByteArray) {levels : Nat} (h1 : 1 ≤ levels) :
    (∃ cause, ofDescription d binary levels = .error (.format cause) ∧
      ∀ tiles content children, ¬ EntriesResolve d binary levels tiles content children) ∨
    ∃ s tiles content children, ofDescription d binary levels = .ok s ∧
      EntriesResolve d binary levels tiles content children ∧
      HasBits s levels tiles content children := by
  rw [ofDescription_eq]
  rcases sourceAvailability_cases hd binary d.tiles h1 .pyramid with
    ⟨cause, he, hno⟩ | ⟨t, tiles, ht, htiles⟩
  · rw [he]
    exact .inl ⟨cause, rfl, fun tiles _ _ h => hno tiles h.tiles⟩
  rw [ht]
  rcases contentAvailability_cases hd binary h1 with
    ⟨cause, he, hno⟩ | ⟨c, content, hc, hcontent, hct, hcl, hcget⟩
  · rw [he]
    exact .inl ⟨cause, rfl, fun _ content _ h => hno content h.content⟩
  rw [hc]
  rcases sourceAvailability_cases hd binary d.children h1 .children with
    ⟨cause, he, hno⟩ | ⟨k, children, hk, hchildren⟩
  · rw [he]
    exact .inl ⟨cause, rfl, fun _ _ children h => hno children h.children⟩
  rw [hk]
  obtain ⟨s, hs, hl, rfl, rfl, rfl⟩ : ∃ s, ofParts t c k levels = .ok s ∧ s.levels = levels ∧
      s.tiles = t ∧ s.content = c ∧ s.children = k :=
    ⟨_, ofParts_eq_ok htiles.topology_eq hct hchildren.topology_eq
      (levelCount_of_length htiles.topology_eq htiles.length_eq) (levelCount_of_length hct hcl)
      hchildren.length_eq, rfl, rfl, rfl, rfl⟩
  refine .inr ⟨s, tiles, content, children, ?_, ?_, ?_⟩
  · show (ofParts s.tiles s.content s.children levels).mapError Error.precondition = _
    rw [hs]
    rfl
  · exact ⟨htiles.resolves, hcontent, hchildren.resolves⟩
  · exact ⟨hl, htiles.get_eq, hcget, hchildren.get_eq⟩

/-! ## From bytes -/

theorem EntriesResolve.unique {levels : Nat} {t t' c c' k k' : Nat → Bool}
    (h : EntriesResolve d binary levels t c k) (h' : EntriesResolve d binary levels t' c' k') :
    t = t' ∧ c = c' ∧ k = k' :=
  ⟨h.tiles.unique h'.tiles, h.content.unique h'.content, h.children.unique h'.children⟩

theorem byteLength_lt_of_parse? {json : ByteArray} {d : Description} (h : parse? json = some d) :
    ∀ buffer ∈ d.buffers, buffer.byteLength < lengthLimit := by
  obtain ⟨v, -, hv⟩ := Option.bind_eq_some_iff.1 h
  exact (Description.of_ofJson?_eq_some hv).1

theorem decode_eq {bytes : ByteArray} {levels : Nat} (h1 : 1 ≤ levels) (h12 : levels ≤ 12) :
    decode bytes levels =
      match splitChunks bytes with
      | .error cause => .error (.format cause)
      | .ok (json, binary) =>
        match parse? json with
        | none => .error (.format .invalidJson)
        | some d => ofDescription d binary levels := by
  unfold decode
  have h : ¬ (levels = 0 ∨ maxSubtreeLevels < levels) := by
    unfold maxSubtreeLevels
    omega
  exact if_neg h

/-- **Bytes that describe no subtree are malformed; bytes that do decode to it.** -/
theorem decode_cases {bytes : ByteArray} (hb : bytes.size < lengthLimit) {levels : Nat}
    (h1 : 1 ≤ levels) (h12 : levels ≤ 12) :
    (∃ cause, decode bytes levels = .error (.format cause) ∧
      ∀ tiles content children, ¬ Describes bytes levels tiles content children) ∨
    ∃ s tiles content children, decode bytes levels = .ok s ∧
      Describes bytes levels tiles content children ∧
      HasBits s levels tiles content children := by
  rw [decode_eq h1 h12]
  cases hsplit : splitChunks bytes with
  | error cause =>
    refine .inl ⟨cause, rfl, ?_⟩
    rintro t c k ⟨j, k', d, hchunks, -⟩
    have hok := (splitChunks_eq_ok_iff hb).2 ⟨j, k', hchunks, rfl, rfl⟩
    rw [hsplit] at hok
    cases hok
  | ok chunks =>
    obtain ⟨json, binary⟩ := chunks
    obtain ⟨j, k, hchunks, rfl, rfl⟩ := exists_of_splitChunks hsplit
    dsimp only
    cases hparse : parse? (jsonChunk bytes j) with
    | none =>
      refine .inl ⟨_, rfl, ?_⟩
      rintro t c k' ⟨j', k'', d, hchunks', hd, -⟩
      obtain ⟨rfl, rfl⟩ := hchunks.lengths_unique hchunks'
      cases hparse.symm.trans hd
    | some d =>
      rcases ofDescription_cases (byteLength_lt_of_parse? hparse) (binaryChunk bytes j k) h1 with
        ⟨cause, he, hno⟩ | ⟨s, tiles, content, children, hs, hentries, hbits⟩
      · refine .inl ⟨cause, he, ?_⟩
        rintro t c k' ⟨j', k'', d', hchunks', hd, hentries⟩
        obtain ⟨rfl, rfl⟩ := hchunks.lengths_unique hchunks'
        cases hparse.symm.trans hd
        exact hno t c k' hentries
      · exact .inr ⟨s, tiles, content, children, hs, ⟨j, k, d, hchunks, hparse, hentries⟩, hbits⟩

theorem Describes.unique {bytes : ByteArray} {levels : Nat} {t t' c c' k k' : Nat → Bool}
    (h : Describes bytes levels t c k) (h' : Describes bytes levels t' c' k') :
    t = t' ∧ c = c' ∧ k = k' := by
  obtain ⟨j, n, d, hchunks, hparse, hentries⟩ := h
  obtain ⟨j', n', d', hchunks', hparse', hentries'⟩ := h'
  obtain ⟨rfl, rfl⟩ := hchunks.lengths_unique hchunks'
  cases hparse.symm.trans hparse'
  exact hentries.unique hentries'

/-- At whatever number of levels bytes are read, they describe the same tiles as far as they go. -/
theorem Describes.tiles_unique {bytes : ByteArray} {levels levels' : Nat}
    {t t' c c' k k' : Nat → Bool} (h : Describes bytes levels t c k)
    (h' : Describes bytes levels' t' c' k') : t = t' := by
  obtain ⟨j, n, d, hchunks, hparse, hentries⟩ := h
  obtain ⟨j', n', d', hchunks', hparse', hentries'⟩ := h'
  obtain ⟨rfl, rfl⟩ := hchunks.lengths_unique hchunks'
  cases hparse.symm.trans hparse'
  exact hentries.tiles.unique hentries'.tiles

/-- The first tile of the one row is the root. -/
theorem HasBits.isAvailable_eq {s : Subtree} {levels : Nat} {tiles content children : Nat → Bool}
    (h : HasBits s levels tiles content children) (h1 : 1 ≤ levels) :
    s.tiles.isAvailable = tiles 0 := by
  have hlevel : 0 < s.tiles.levelCount := by
    rw [s.tiles_levels, h.levels_eq]
    exact h1
  have hroot := get_toBitset_pyramid s.tiles_topology hlevel (j := 0) Nat.one_pos
  exact hroot.symm.trans (h.tiles_eq 0 (pyramidLength_mono h1))

/-- **Decoding reads what is described.** -/
theorem decode_of_describes {bytes : ByteArray} (hb : bytes.size < lengthLimit) {levels : Nat}
    (h1 : 1 ≤ levels) (h12 : levels ≤ 12) {tiles content children : Nat → Bool}
    (h : Describes bytes levels tiles content children) :
    ∃ s, decode bytes levels = .ok s ∧ HasBits s levels tiles content children := by
  rcases decode_cases hb h1 h12 with ⟨cause, -, hno⟩ | ⟨s, t, c, k, hs, hdescribes, hbits⟩
  · exact absurd h (hno tiles content children)
  · obtain ⟨rfl, rfl, rfl⟩ := hdescribes.unique h
    exact ⟨s, hs, hbits⟩

end ImplicitTiling.Subtree
