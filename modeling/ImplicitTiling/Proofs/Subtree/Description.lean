import ImplicitTiling.Proofs.Json.Records
import ImplicitTiling.Subtree.Description

/-!
# Descriptions read back

`Description.ofJson?_toJson`: a description whose numbers fit their fields is read back from its
record, and the record itself is a value that survives its text (`Description.spelled_toJson`).
-/

namespace ImplicitTiling

open Json

theorem spelled_presentMember {name : String} {n : Option Nat} {m : String × Json}
    (h : m ∈ presentMember name n) : Spelled m.2 := by
  cases n with
  | none => cases h
  | some n =>
    obtain rfl := List.mem_singleton.1 h
    exact spelled_ofNat n

theorem isPlain_presentMember {name : String} {n : Option Nat} {m : String × Json}
    (hn : ∀ k ∈ n, k < 2 ^ 64) (h : m ∈ presentMember name n) : isPlain m.2 = true := by
  cases n with
  | none => cases h
  | some n =>
    obtain rfl := List.mem_singleton.1 h
    exact isPlain_ofNat (hn n rfl)

theorem depth_presentMember {name : String} {n : Option Nat} {m : String × Json}
    (h : m ∈ presentMember name n) : depth m.2 ≤ 0 := by
  cases n with
  | none => cases h
  | some n =>
    obtain rfl := List.mem_singleton.1 h
    exact Nat.le_refl 0

namespace BitSource

/-- The numbers of a source stay below a bound, the constant below that of its field. -/
structure Below (bound : Nat) (s : BitSource) : Prop where
  bitstream_lt : ∀ n ∈ s.bitstream, n < bound
  availableCount_lt : ∀ n ∈ s.availableCount, n < bound
  constant_lt : ∀ n ∈ s.constant, n < 256

variable {bound : Nat} {s : BitSource}

theorem spelled_toJson (s : BitSource) : Spelled s.toJson := by
  apply spelled_record
  intro m hm
  rcases List.mem_append.1 hm with hm | hm
  · rcases List.mem_append.1 hm with hm | hm
    · exact spelled_presentMember hm
    · exact spelled_presentMember hm
  · exact spelled_presentMember hm

/-- A source is read back from its record. -/
theorem ofJson?_toJson (hbound : bound ≤ lengthLimit) (h : Below bound s) :
    ofJson? s.toJson = some s := by
  obtain ⟨bitstream, availableCount, constant⟩ := s
  obtain ⟨h1, h2, h3⟩ := h
  replace h1 := fun n hn => Nat.lt_of_lt_of_le (h1 n hn) hbound
  replace h2 := fun n hn => Nat.lt_of_lt_of_le (h2 n hn) hbound
  unfold ofJson? toJson
  cases bitstream with
  | none =>
    cases availableCount <;> cases constant <;> rw [fields?_record] <;>
      simp_all [presentMember, optional_none, optional_ofNat, List.lookup_cons]
  | some b =>
    cases availableCount <;> cases constant <;> rw [fields?_record] <;>
      simp_all [presentMember, optional_none, optional_ofNat, List.lookup_cons]

theorem isPlain_toJson (hbound : bound ≤ lengthLimit) (h : Below bound s) :
    s.toJson.isPlain = true := by
  apply isPlain_record
  intro m hm
  rcases List.mem_append.1 hm with hm | hm
  · rcases List.mem_append.1 hm with hm | hm
    · exact isPlain_presentMember (fun n hn => Nat.lt_of_lt_of_le (h.bitstream_lt n hn) hbound) hm
    · exact isPlain_presentMember
        (fun n hn => Nat.lt_of_lt_of_le (h.availableCount_lt n hn) hbound) hm
  · exact isPlain_presentMember (fun n hn => Nat.lt_trans (h.constant_lt n hn) (by decide)) hm

theorem depth_toJson (s : BitSource) : s.toJson.depth ≤ 1 := by
  apply depth_record_le
  intro m hm
  rcases List.mem_append.1 hm with hm | hm
  · rcases List.mem_append.1 hm with hm | hm
    · exact depth_presentMember hm
    · exact depth_presentMember hm
  · exact depth_presentMember hm

end BitSource

namespace PackedBuffer

theorem spelled_toJson (b : PackedBuffer) : Spelled b.toJson := by
  apply spelled_record
  intro m hm
  obtain ⟨name, byteLength⟩ := b
  cases name with
  | none =>
    obtain rfl := List.mem_singleton.1 hm
    exact spelled_ofNat byteLength
  | some name =>
    rcases List.mem_cons.1 hm with rfl | hm
    · exact .string name
    · obtain rfl := List.mem_singleton.1 hm
      exact spelled_ofNat byteLength

theorem ofJson?_toJson {b : PackedBuffer} (h : b.byteLength < lengthLimit) :
    ofJson? b.toJson = some b := by
  obtain ⟨name, byteLength⟩ := b
  unfold ofJson? toJson
  cases name <;> rw [fields?_record] <;>
    simp_all [Json.toText?, Json.optional, required_ofNat, List.lookup_cons]

theorem byteLength_lt {v : Json} {b : PackedBuffer} (h : ofJson? v = some b) :
    b.byteLength < lengthLimit := by
  unfold ofJson? at h
  obtain ⟨fields, -, h⟩ := Option.bind_eq_some_iff.1 h
  split at h
  · obtain ⟨name, -, h⟩ := Option.bind_eq_some_iff.1 h
    obtain ⟨byteLength, hlen, h⟩ := Option.bind_eq_some_iff.1 h
    cases h
    unfold required at hlen
    split at hlen
    · cases hlen
    · exact lt_of_toNat?_eq_some hlen
  · cases h

end PackedBuffer

namespace BufferView

/-- The numbers of a view stay below a bound. -/
structure Below (bound : Nat) (w : BufferView) : Prop where
  buffer_lt : w.buffer < bound
  byteOffset_lt : w.byteOffset < bound
  byteLength_lt : w.byteLength < bound

variable {bound : Nat} {w : BufferView}

theorem spelled_toJson (w : BufferView) : Spelled w.toJson := by
  apply spelled_record
  intro m hm
  simp only [List.mem_cons, List.not_mem_nil, or_false] at hm
  rcases hm with rfl | rfl | rfl <;> exact spelled_ofNat _

theorem ofJson?_toJson (hbound : bound ≤ lengthLimit) (h : Below bound w) :
    ofJson? w.toJson = some w := by
  have h1 := Nat.lt_of_lt_of_le h.buffer_lt hbound
  have h2 := Nat.lt_of_lt_of_le h.byteOffset_lt hbound
  have h3 := Nat.lt_of_lt_of_le h.byteLength_lt hbound
  unfold ofJson? toJson
  rw [fields?_record rfl]
  simp [required_ofNat, h1, h2, h3, List.lookup_cons]

end BufferView

namespace Description

/-- The numbers of a description stay below a bound. -/
structure Below (bound : Nat) (d : Description) : Prop where
  buffers : ∀ b ∈ d.buffers, b.byteLength < bound
  views : ∀ w ∈ d.views, BufferView.Below bound w
  tiles : BitSource.Below bound d.tiles
  content : ∀ s ∈ d.content, BitSource.Below bound s
  children : BitSource.Below bound d.children

variable {bound : Nat}

theorem spelled_toJson (d : Description) : Spelled d.toJson := by
  apply spelled_record
  intro m hm
  simp only [List.mem_cons, List.not_mem_nil, or_false] at hm
  rcases hm with rfl | rfl | rfl | rfl | rfl
  · exact spelled_array_map PackedBuffer.spelled_toJson d.buffers
  · exact spelled_array_map BufferView.spelled_toJson d.views
  · exact d.tiles.spelled_toJson
  · exact spelled_array_map BitSource.spelled_toJson d.content
  · exact d.children.spelled_toJson

theorem contentOfJson?_toJson (hbound : bound ≤ lengthLimit) {sources : List BitSource}
    (h : ∀ s ∈ sources, BitSource.Below bound s) :
    contentOfJson? (.array (sources.map BitSource.toJson)) = some sources := by
  have hplain : isPlain (.array (sources.map BitSource.toJson)) = true :=
    isPlain_array_map fun s hs => BitSource.isPlain_toJson hbound (h s hs)
  have hdepth : depth (.array (sources.map BitSource.toJson)) ≤ 2 :=
    depth_array_map_le fun s _ => s.depth_toJson
  have hlist : toList? BitSource.ofJson? (.array (sources.map BitSource.toJson)) = some sources :=
    toList?_map fun s hs => BitSource.ofJson?_toJson hbound (h s hs)
  have hdeep : ¬ contentDepth < depth (.array (sources.map BitSource.toJson)) := by
    unfold contentDepth
    omega
  unfold contentOfJson?
  rw [hplain, hlist]
  simp only [Bool.not_true, Bool.false_or, decide_eq_true_eq, if_neg hdeep]
  rfl

/-- **Descriptions are read back.** A description whose numbers fit their fields is what its record
stands for. -/
theorem ofJson?_toJson (hbound : bound ≤ lengthLimit) {d : Description} (h : Below bound d) :
    ofJson? d.toJson = some d := by
  have hbuffers := toList?_map fun b hb =>
    PackedBuffer.ofJson?_toJson (Nat.lt_of_lt_of_le (h.buffers b hb) hbound)
  have hviews := toList?_map fun w hw => BufferView.ofJson?_toJson hbound (h.views w hw)
  have htiles := BitSource.ofJson?_toJson hbound h.tiles
  have hcontent := contentOfJson?_toJson hbound h.content
  have hchildren := BitSource.ofJson?_toJson hbound h.children
  unfold ofJson? toJson
  rw [fields?_record rfl]
  simp [List.lookup_cons, defaulted, required, Json.optional, hbuffers, hviews, htiles, hcontent,
    hchildren]

/-- The content entries that a member of a record stands for: none if it is missing or null, those
of a list of entries, and otherwise the single entry that it is. -/
def ContentOf (member : Option Json) (content : List BitSource) : Prop :=
  (member = none ∨ member = some .null) ∧ content = [] ∨
    ∃ v, member = some v ∧ (toList? BitSource.ofJson? v = some content ∨
      toList? BitSource.ofJson? v = none ∧ ∃ s, BitSource.ofJson? v = some s ∧ content = [s])

theorem contentOf_of_optional {member : Option Json} {content : Option (List BitSource)}
    (h : Json.optional contentOfJson? member = some content) :
    ContentOf member (content.getD []) := by
  unfold Json.optional at h
  split at h
  · cases h
    exact .inl ⟨.inl rfl, rfl⟩
  · cases h
    exact .inl ⟨.inr rfl, rfl⟩
  · next v _ =>
    obtain ⟨sources, hsources, rfl⟩ := Option.map_eq_some_iff.1 h
    refine .inr ⟨v, rfl, ?_⟩
    unfold contentOfJson? at hsources
    split at hsources
    · cases hsources
    · cases hlist : toList? BitSource.ofJson? v with
      | some as =>
        rw [hlist] at hsources
        cases hsources
        exact .inl rfl
      | none =>
        rw [hlist] at hsources
        obtain ⟨s, hs, rfl⟩ := Option.map_eq_some_iff.1 hsources
        exact .inr ⟨rfl, s, hs, rfl⟩

/-- A description that was read has buffers whose lengths fit their field, and content entries as
its record has them. -/
theorem of_ofJson?_eq_some {v : Json} {d : Description} (h : ofJson? v = some d) :
    (∀ buffer ∈ d.buffers, buffer.byteLength < lengthLimit) ∧
      ∃ buffers views tiles content children,
        v.fields? ["buffers", "bufferViews", "tileAvailability", "contentAvailability",
          "childSubtreeAvailability"] = some [buffers, views, tiles, content, children] ∧
        ContentOf content d.content := by
  unfold ofJson? at h
  obtain ⟨fields, hfields, h⟩ := Option.bind_eq_some_iff.1 h
  split at h
  · next buffers views tiles content children =>
    obtain ⟨bs, hbs, h⟩ := Option.bind_eq_some_iff.1 h
    obtain ⟨ws, -, h⟩ := Option.bind_eq_some_iff.1 h
    obtain ⟨t, -, h⟩ := Option.bind_eq_some_iff.1 h
    obtain ⟨c, hc, h⟩ := Option.bind_eq_some_iff.1 h
    obtain ⟨k, -, h⟩ := Option.bind_eq_some_iff.1 h
    cases h
    constructor
    · intro buffer hbuffer
      dsimp only at hbuffer
      cases buffers with
      | none =>
        cases hbs
        cases hbuffer
      | some v' =>
        obtain ⟨v'', hv''⟩ := exists_of_toList?_eq_some hbs hbuffer
        exact PackedBuffer.byteLength_lt hv''
    · refine ⟨_, _, _, _, _, hfields, ?_⟩
      exact contentOf_of_optional hc
  · cases h

end Description

end ImplicitTiling
