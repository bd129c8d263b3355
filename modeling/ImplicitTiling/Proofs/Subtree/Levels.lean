import ImplicitTiling.Proofs.Subtree.Joining
import ImplicitTiling.Proofs.Subtree.Layout

/-!
# Reading a file at another number of levels

The file of a subtree does not say how many levels it has. To a reader of fewer levels it shows the
top of the subtree (`decode_encode_of_le`). A level more takes more bytes of an availability that is
mixed (`byteCount_bitCount_lt`), so a reader of more levels misses some (`decode_encode_of_mixed`);
constants have no bytes, and are read at any number of levels (`decode_encode_of_constant`).
-/

namespace ImplicitTiling

open Availability

/-- The entry of a uniform availability resolves to its value, however many bits are wanted. -/
theorem Named.resolves {a : Availability} {index : Nat} {source : BitSource}
    (h : Named a index source) {v : Bool} (hv : a.Uniform v) {d : Description} {binary : ByteArray}
    {n : Nat} : Subtree.Resolves d binary n source fun _ => v := by
  cases v with
  | false =>
    rw [h.zero_iff.2 hv]
    exact .constant false rfl rfl
  | true =>
    rw [h.one_iff.2 hv]
    exact .constant true rfl rfl

/-- The view of a mixed availability has no more bytes than the availability, and is found too short
for more. -/
theorem Packing.Carries.sourceAvailability_of_lt {p : Packing} {a : Availability}
    {source : BitSource} (h : p.Carries source a) {index : Nat} (hnamed : Named a index source)
    (hm : a.Mixed) {d : Description} (hviews : d.views = p.views) {buffer : PackedBuffer}
    (hbuffer : d.buffers[0]? = some buffer) (hlen : p.data.size ≤ buffer.byteLength)
    (hlimit : p.data.size < lengthLimit) (padding : ByteArray) {n : Nat}
    (hn : byteCount a.length < byteCount n) (t : Topology) :
    Subtree.sourceAvailability d (p.data ++ padding) source n t =
      .error (.format (.viewTooShort index (byteCount a.length) n)) := by
  cases h with
  | constant v h hc hv => exact absurd hm (exists_uniform_iff.1 ⟨v, uniform_iff.2 hv⟩)
  | view index' offset h hw hle hbytes =>
    obtain rfl : index = index' := by
      rw [hnamed.of_mixed hm] at h
      exact Option.some.inj h
    rw [← hviews] at hw
    have hchunk : offset + byteCount a.length ≤ (p.data ++ padding).size := by
      rw [ByteArray.size_append]
      omega
    have hshort : Bitset.ofBytes?
        ((p.data ++ padding).extract offset (offset + byteCount a.length)) n = none := by
      apply Bitset.ofBytes?_eq_none_iff.2
      rw [ByteArray.size_extract]
      omega
    unfold Subtree.sourceAvailability Subtree.sourceBits
    rw [h]
    dsimp only
    rw [Subtree.viewedBits_of_view hw hbuffer rfl]
    dsimp only
    rw [if_neg (by omega), if_neg (by omega), hshort]

namespace Subtree

/-! ## Bytes of a level more -/

theorem bitCount_add_le {levels levels' : Nat} {t : Topology} (h2 : 2 ≤ bitCount levels t)
    (h : levels < levels') : bitCount levels t + 8 ≤ bitCount levels' t := by
  have hpow (n : Nat) : 0 < 4 ^ n := Nat.pow_pos (by decide)
  cases t with
  | pyramid =>
    have hle : pyramidLength (levels + 1) ≤ pyramidLength levels' := pyramidLength_mono h
    rw [pyramidLength_succ] at hle
    match levels, h2 with
    | levels + 2, _ =>
      have := hpow levels
      rw [Nat.pow_add] at hle
      show pyramidLength (levels + 2) + 8 ≤ pyramidLength levels'
      omega
  | children =>
    have hle : 4 ^ (levels + 1) ≤ 4 ^ levels' := Nat.pow_le_pow_right (by decide) h
    match levels, h2 with
    | levels + 1, _ =>
      have := hpow levels
      rw [Nat.pow_add, Nat.pow_add] at hle
      show 4 ^ levels * 4 + 8 ≤ 4 ^ levels'
      omega

theorem byteCount_bitCount_lt {levels levels' : Nat} {t : Topology} (h2 : 2 ≤ bitCount levels t)
    (h : levels < levels') : byteCount (bitCount levels t) < byteCount (bitCount levels' t) := by
  have := bitCount_add_le h2 h
  unfold byteCount
  omega

variable {s t : Subtree} {levels : Nat}

/-! ## Fewer levels -/

/-- `t` is the top of `s`: the first `levels` levels of both pyramids, and as many child bits as that
many levels have. -/
structure IsTop (s : Subtree) (levels : Nat) (t : Subtree) : Prop where
  levels_eq : t.levels = levels
  tiles_rows : t.tiles.rows = s.tiles.rows.take levels
  content_rows : t.content.rows = s.content.rows.take levels
  child_eq : ∀ c < 4 ^ levels, (t.children.row 0).get c = (s.children.row 0).get c

theorem HasBits.isTop {tiles content children : Nat → Bool}
    (ht : HasBits t levels tiles content children)
    (hs : HasBits s s.levels tiles content children) (hle : levels ≤ s.levels) :
    IsTop s levels t := by
  obtain ⟨rfl, htiles, hcontent, hchildren⟩ := ht
  have hpyramid : pyramidLength t.levels ≤ pyramidLength s.levels := pyramidLength_mono hle
  have hrows {a b : Availability} {f : Nat → Bool} (ha : a.topology = .pyramid)
      (hb : b.topology = .pyramid) (hla : a.levelCount = t.levels) (hlb : b.levelCount = s.levels)
      (haf : ∀ k < pyramidLength t.levels, a.toBitset.get k = f k)
      (hbf : ∀ k < pyramidLength s.levels, b.toBitset.get k = f k) :
      a.rows = b.rows.take t.levels := by
    rw [← hla]
    apply rows_eq_take ha hb (by rwa [hla, hlb])
    intro k hk
    rw [length_pyramid ha, hla] at hk
    rw [haf k hk, hbf k (Nat.lt_of_lt_of_le hk hpyramid)]
  refine ⟨rfl, ?_, ?_, ?_⟩
  · exact hrows t.tiles_topology s.tiles_topology t.tiles_levels s.tiles_levels htiles hs.tiles_eq
  · exact hrows t.content_topology s.content_topology t.content_levels s.content_levels hcontent
      hs.content_eq
  · intro c hc
    have hc' : c < 4 ^ s.levels := Nat.lt_of_lt_of_le hc (Nat.pow_le_pow_right (by decide) hle)
    rw [← toBitset_children t.children_topology, ← toBitset_children s.children_topology,
      hchildren c hc, hs.children_eq c hc']

theorem decode_encode_of_le (h12 : s.levels ≤ 12) (hl1 : 1 ≤ levels) (hle : levels ≤ s.levels) :
    ∃ t, decode s.encode levels = .ok t ∧ IsTop s levels t := by
  obtain ⟨hsize, _, _, _, hdescribes, hbits⟩ := describes_encode_of_le h12 hle
  obtain ⟨t, ht, hbits'⟩ := decode_of_describes hsize hl1 (Nat.le_trans hle h12) hdescribes
  exact ⟨t, ht, hbits'.isTop hbits hle⟩

/-! ## More levels -/

/-- All tiles have one value, and so have all content bits and all child bits. -/
structure IsConstant (s : Subtree) (tile content child : Bool) : Prop where
  tiles : s.tiles.Uniform tile
  content : s.content.Uniform content
  children : s.children.Uniform child

theorem exists_isConstant_iff : (∃ tile content child, s.IsConstant tile content child) ↔
    s.mixed = [] := by
  have huniform : s.mixed = [] ↔ ¬ s.tiles.Mixed ∧ ¬ s.content.Mixed ∧ ¬ s.children.Mixed := by
    simp [mixed, List.filter_eq_nil_iff]
  rw [huniform, ← exists_uniform_iff, ← exists_uniform_iff, ← exists_uniform_iff]
  constructor
  · rintro ⟨tile, content, child, ht, hc, hk⟩
    exact ⟨⟨tile, ht⟩, ⟨content, hc⟩, ⟨child, hk⟩⟩
  · rintro ⟨⟨tile, ht⟩, ⟨content, hc⟩, ⟨child, hk⟩⟩
    exact ⟨tile, content, child, ht, hc, hk⟩

theorem HasBits.isConstant {tile content child : Bool}
    (h : HasBits t levels (fun _ => tile) (fun _ => content) (fun _ => child)) :
    t.IsConstant tile content child := by
  obtain ⟨rfl, htiles, hcontent, hchildren⟩ := h
  refine ⟨uniform_iff.2 ?_, uniform_iff.2 ?_, uniform_iff.2 ?_⟩
  · rwa [length_tiles]
  · rwa [length_content]
  · rwa [t.children_length]

theorem decode_encode_of_constant (h1 : 1 ≤ s.levels) (h12 : s.levels ≤ 12) (hl1 : 1 ≤ levels)
    (hl12 : levels ≤ 12) {tile content child : Bool} (h : s.IsConstant tile content child) :
    ∃ t, decode s.encode levels = .ok t ∧ t.levels = levels ∧ t.IsConstant tile content child := by
  have h30 : s.levels ≤ 30 := by omega
  obtain ⟨p, tiles, content', children, hp⟩ := exists_isPacked h30
  obtain ⟨-, htiles, hcontent, hchildren⟩ := describe_holds h1 hp.describe_eq
  have hdescribes : Describes s.encode levels (fun _ => tile) (fun _ => content) fun _ => child :=
    hp.describes h30 ⟨htiles.resolves h.tiles, .entry rfl (hcontent.resolves h.content),
      hchildren.resolves h.children⟩
  obtain ⟨t, ht, hbits⟩ :=
    decode_of_describes (size_encode_lt_lengthLimit h12) hl1 hl12 hdescribes
  exact ⟨t, ht, hbits.levels_eq, hbits.isConstant⟩

section

variable {p : Packing} {tiles content children : BitSource}

theorem IsPacked.decode_eq (hp : IsPacked s p tiles content children) (h12 : s.levels ≤ 12)
    (hl1 : 1 ≤ levels) (hl12 : levels ≤ 12) {d : Description}
    (hd : packedDescription p tiles content children = d) :
    decode s.encode levels = (do
      let t ← sourceAvailability d (paddedData p) tiles (bitCount levels .pyramid) .pyramid
      let c ← sourceAvailability d (paddedData p) content (bitCount levels .pyramid) .pyramid
      let k ← sourceAvailability d (paddedData p) children (bitCount levels .children) .children
      (ofParts t c k levels).mapError .precondition) := by
  subst hd
  obtain ⟨-, hchunks, hjson, hbinary⟩ := hp.holdsChunks (by omega) rfl rfl
  have hsplit := (splitChunks_eq_ok_iff (size_encode_lt_lengthLimit h12)).2
    ⟨_, _, hchunks, rfl, rfl⟩
  rw [hjson, hbinary] at hsplit
  rw [Subtree.decode_eq hl1 hl12, hsplit]
  dsimp only
  rw [hp.parse?_eq]
  exact ofDescription_eq levels

variable {a : Availability} {source : BitSource} {index : Nat} {t : Topology}

/-- A mixed availability has two bits or more, so the bytes of its view are too few for more
levels. -/
theorem IsPacked.sourceAvailability_of_mixed (hp : IsPacked s p tiles content children)
    (h30 : s.levels ≤ 30) (hcarries : p.Carries source a) (hnamed : Named a index source)
    (hm : a.Mixed) (ht : a.topology = t) (hlength : a.length = bitCount s.levels t)
    (hgt : s.levels < levels) :
    sourceAvailability (packedDescription p tiles content children) (paddedData p) source
        (bitCount levels t) t =
      .error (.format (.viewTooShort index (byteCount a.length) (bitCount levels a.topology))) := by
  subst ht
  obtain ⟨-, hbinary⟩ := hp.chunks_lt h30
  rw [size_paddedData] at hbinary
  apply hcarries.sourceAvailability_of_lt hnamed hm rfl rfl (Nat.le_add_right _ _) (by omega)
  rw [hlength]
  exact byteCount_bitCount_lt (hlength ▸ hm.two_le_length) hgt

theorem IsPacked.exists_sourceAvailability (hp : IsPacked s p tiles content children)
    (hnamed : Named a index source) (hm : ¬ a.Mixed) (hl1 : 1 ≤ levels) (t : Topology) :
    ∃ b, sourceAvailability (packedDescription p tiles content children) (paddedData p) source
      (bitCount levels t) t = .ok b := by
  obtain ⟨v, hv⟩ := exists_uniform_iff.2 hm
  rcases sourceAvailability_cases hp.below.buffers (paddedData p) source hl1 t with
    ⟨_, -, hno⟩ | ⟨b, _, hb, -⟩
  · exact absurd (hnamed.resolves hv) (hno _)
  · exact ⟨b, hb⟩

end

theorem decode_encode_of_mixed (h1 : 1 ≤ s.levels) (h12 : s.levels ≤ 12) (hl12 : levels ≤ 12)
    (hgt : s.levels < levels) {a : Availability} (ha : s.mixed.head? = some a) :
    decode s.encode levels =
      .error (.format (.viewTooShort 0 (byteCount a.length) (bitCount levels a.topology))) := by
  have hl1 : 1 ≤ levels := by omega
  have h30 : s.levels ≤ 30 := by omega
  obtain ⟨p, tiles, content, children, hp⟩ := exists_isPacked h30
  obtain ⟨-, htiles, hcontent, hchildren⟩ := describe_holds h1 hp.describe_eq
  rw [hp.decode_eq h12 hl1 hl12 rfl]
  by_cases htm : s.tiles.Mixed
  · obtain rfl : s.tiles = a := by simpa [mixed, htm] using ha
    rw [hp.sourceAvailability_of_mixed h30 hp.tiles_carries htiles htm s.tiles_topology
      (length_tiles s) hgt]
    rfl
  obtain ⟨t, ht⟩ := hp.exists_sourceAvailability htiles htm hl1 .pyramid
  rw [ht]
  by_cases hcm : s.content.Mixed
  · obtain rfl : s.content = a := by simpa [mixed, htm, hcm] using ha
    have hfirst : [s.tiles].countP (fun a => a.Mixed) = 0 := by simp [htm]
    rw [hfirst] at hcontent
    rw [hp.sourceAvailability_of_mixed h30 hp.content_carries hcontent hcm s.content_topology
      (length_content s) hgt]
    rfl
  obtain ⟨c, hc⟩ := hp.exists_sourceAvailability hcontent hcm hl1 .pyramid
  rw [hc]
  obtain ⟨hkm, rfl⟩ : s.children.Mixed ∧ s.children = a := by
    by_cases hkm : s.children.Mixed
    · exact ⟨hkm, by simpa [mixed, htm, hcm, hkm] using ha⟩
    · simp [mixed, htm, hcm, hkm] at ha
  have hfirst : [s.tiles, s.content].countP (fun a => a.Mixed) = 0 := by simp [htm, hcm]
  rw [hfirst] at hchildren
  rw [hp.sourceAvailability_of_mixed h30 hp.children_carries hchildren hkm s.children_topology
    s.children_length hgt]
  rfl

/-- **Reading a file at another number of levels.** At fewer levels the top of the subtree is read.
At more levels a subtree is read exactly if every availability has one value throughout, and the
values stay; any other file is refused, since its first bitstream is too short. -/
theorem decode_encode_levels (s : Subtree) (levels : Nat) (h1 : 1 ≤ s.levels) (h12 : s.levels ≤ 12)
    (hl1 : 1 ≤ levels) (hl12 : levels ≤ 12) :
    (levels < s.levels → ∃ t, decode s.encode levels = .ok t ∧ IsTop s levels t) ∧
    (s.levels < levels →
      ((∃ t, decode s.encode levels = .ok t) ↔
        ∃ tile content child, s.IsConstant tile content child) ∧
      (∀ t tile content child, decode s.encode levels = .ok t → s.IsConstant tile content child →
        t.levels = levels ∧ t.IsConstant tile content child) ∧
      ((¬ ∃ tile content child, s.IsConstant tile content child) → ∃ a, s.mixed.head? = some a ∧
        decode s.encode levels = .error
          (.format (.viewTooShort 0 (byteCount a.length) (bitCount levels a.topology))))) := by
  refine ⟨fun hlt => decode_encode_of_le h12 hl1 (Nat.le_of_lt hlt), fun hgt => ?_⟩
  have hrefused (hno : ¬ ∃ tile content child, s.IsConstant tile content child) :
      ∃ a, s.mixed.head? = some a ∧ decode s.encode levels = .error
        (.format (.viewTooShort 0 (byteCount a.length) (bitCount levels a.topology))) := by
    obtain ⟨a, as, hmixed⟩ := List.exists_cons_of_ne_nil fun h => hno (exists_isConstant_iff.2 h)
    have ha : s.mixed.head? = some a := by
      rw [hmixed]
      rfl
    exact ⟨a, ha, decode_encode_of_mixed h1 h12 hl12 hgt ha⟩
  refine ⟨⟨?_, ?_⟩, ?_, hrefused⟩
  · rintro ⟨t, ht⟩
    by_contra hno
    obtain ⟨a, -, herror⟩ := hrefused hno
    cases ht.symm.trans herror
  · rintro ⟨tile, content, child, hconstant⟩
    obtain ⟨t, ht, -⟩ := decode_encode_of_constant h1 h12 hl1 hl12 hconstant
    exact ⟨t, ht⟩
  · intro t tile content child ht hconstant
    obtain ⟨t', ht', hlevels, hconstant'⟩ := decode_encode_of_constant h1 h12 hl1 hl12 hconstant
    cases ht.symm.trans ht'
    exact ⟨hlevels, hconstant'⟩

/-- A quadrant of two levels is cut to its root, and is refused at three levels, where its five tiles
have one byte and not three. An empty subtree of one level is read at two. -/
theorem decode_encode_levels_two : (∃ t, decode sparseQuadrant.encode 1 = .ok t ∧
      t.tiles.rows = [bitRow true] ∧ (t.children.row 0).get 3 = false) ∧
    decode sparseQuadrant.encode 3 = .error (.format (.viewTooShort 0 1 21)) ∧
    ∃ t, decode (Subtree.empty 1).encode 2 = .ok t ∧ t.levels = 2 ∧
      t.IsConstant false false false := by
  have hempty : (Subtree.empty 1).IsConstant false false false := by
    refine ⟨fun i _ j _ => ?_, fun i _ j _ => ?_, fun i _ j _ => ?_⟩ <;> exact get_row_empty 1 _ i j
  have hmixed : ¬ ∃ tile content child, sparseQuadrant.IsConstant tile content child := by
    rw [exists_isConstant_iff]
    decide
  refine ⟨?_, ?_, ?_⟩
  · obtain ⟨t, ht, htop⟩ := (decode_encode_levels sparseQuadrant 1 (by decide) (by decide)
      (by decide) (by decide)).1 (by decide)
    exact ⟨t, ht, htop.tiles_rows, htop.child_eq 3 (by decide)⟩
  · obtain ⟨-, -, hrefused⟩ := (decode_encode_levels sparseQuadrant 3 (by decide) (by decide)
      (by decide) (by decide)).2 (by decide)
    obtain ⟨a, ha, herror⟩ := hrefused hmixed
    have hfirst : sparseQuadrant.mixed.head? = some sparseQuadrant.tiles := by decide
    obtain rfl : sparseQuadrant.tiles = a := Option.some.inj (hfirst.symm.trans ha)
    exact herror
  · obtain ⟨hiff, hkept, -⟩ := (decode_encode_levels (.empty 1) 2 (by decide) (by decide)
      (by decide) (by decide)).2 (by decide)
    obtain ⟨t, ht⟩ := hiff.2 ⟨false, false, false, hempty⟩
    exact ⟨t, ht, hkept t false false false ht hempty⟩

end Subtree

end ImplicitTiling
