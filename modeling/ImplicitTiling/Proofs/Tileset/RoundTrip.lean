import ImplicitTiling.Proofs.Json.Records
import ImplicitTiling.Tileset.Json

/-!
# Tilesets read back

`Tileset.ofText?_toText_iff`: where finite numbers are read back from what is written for them, a
tileset is read back from its text exactly if all its numbers are finite. Its strings may hold any
text, and content and tiling scheme may be there or not.

1. A tileset is what its record stands for exactly if each of its numbers is
   (`Region.ofJson?_toJson_iff`, `RootTile.ofJson?_toJson_iff`, `Tileset.ofJson?_toJson_iff`): a
   member that is left out is read as nothing, and the names that are written are those that are
   read.
2. The record survives its text if the numerals in it are well-formed (`Tileset.spelled_toJson`),
   and numerals that are read at all are (`NumberFormat.readsBack_iff`).
-/

namespace ImplicitTiling

open Json

namespace NumberFormat

/-- The text that is written for a number is read as that number. -/
def ReadsBack (f : NumberFormat) (x : Float) : Prop :=
  (read? (f.write x).octets).bind f.ofJson? = some x

instance (f : NumberFormat) (x : Float) : Decidable (f.ReadsBack x) :=
  inferInstanceAs (Decidable (_ = _))

variable {f : NumberFormat} {x : Float}

theorem readsBack_iff :
    f.ReadsBack x ↔ (f.write x).WellFormed ∧ f.read (f.write x) = some x := by
  constructor
  · intro h
    obtain ⟨v, hread, hv⟩ := Option.bind_eq_some_iff.1 h
    obtain ⟨hn, rfl⟩ := read?_octets_iff.1 hread
    exact ⟨hn, hv⟩
  · rintro ⟨hn, hv⟩
    exact Option.bind_eq_some_iff.2 ⟨_, read?_octets_iff.2 ⟨hn, rfl⟩, hv⟩

/-- The format of the files does not keep every finite number: the last bit of this one is lost. -/
example : (1 / 11 : Float).isFinite = true ∧ ¬ json.ReadsBack (1 / 11) := by
  decide +kernel

/-- What is not finite is written as null, which stands for no number. -/
theorem ofJson?_toJson_iff :
    f.ofJson? (f.toJson x) = some x ↔ x.isFinite = true ∧ f.read (f.write x) = some x := by
  unfold toJson
  split
  · next hx => exact (and_iff_right hx).symm
  · next hx =>
    constructor
    · intro h
      cases h
    · exact fun h => absurd h.1 hx

theorem spelled_toJson (h : x.isFinite = true → (f.write x).WellFormed) :
    Spelled (f.toJson x) := by
  unfold toJson
  split
  · next hx => exact .number _ (h hx)
  · exact .null

end NumberFormat

/-! ## Parts of records -/

theorem ofTextRecord?_textRecord (name text : String) :
    ofTextRecord? name (textRecord name text) = some text := by
  unfold ofTextRecord? textRecord
  rw [fields?_record (by simp), List.map_singleton, List.lookup_cons_self]
  rfl

theorem spelled_textRecord (name text : String) : Spelled (textRecord name text) := by
  apply spelled_record
  intro m hm
  obtain rfl := List.mem_singleton.1 hm
  exact .string text

theorem spelled_optionalMember {α : Type} {name : String} {write : α → Json}
    (h : ∀ b, Spelled (write b)) {a : Option α} {m : String × Json}
    (hm : m ∈ optionalMember name write a) : Spelled m.2 := by
  cases a with
  | none => cases hm
  | some b =>
    obtain rfl := List.mem_singleton.1 hm
    exact h b

variable {f : NumberFormat}

namespace Region

/-- The numbers of a region. -/
def numbers (r : Region) : List Float :=
  [r.west, r.south, r.east, r.north, r.minHeight, r.maxHeight]

theorem fields?_toJson (f : NumberFormat) (r : Region) :
    (r.toJson f).fields? ["region"] = some [some (.array (r.numbers.map f.toJson))] :=
  rfl

theorem ofJson?_toJson_iff (r : Region) :
    ofJson? f (r.toJson f) = some r ↔ ∀ x ∈ r.numbers, f.ofJson? (f.toJson x) = some x := by
  obtain ⟨west, south, east, north, minHeight, maxHeight⟩ := r
  unfold ofJson?
  rw [fields?_toJson]
  simp only [numbers, ofList?, required, List.map_cons, List.map_nil, Option.bind_eq_bind,
    Option.bind_some, Option.pure_def, Option.bind_eq_some_iff, Option.some.injEq,
    Region.mk.injEq, List.forall_mem_cons]
  constructor
  · rintro ⟨_, h1, _, h2, _, h3, _, h4, _, h5, _, h6, rfl, rfl, rfl, rfl, rfl, rfl⟩
    exact ⟨h1, h2, h3, h4, h5, h6, fun x hx => nomatch hx⟩
  · rintro ⟨h1, h2, h3, h4, h5, h6, -⟩
    exact ⟨_, h1, _, h2, _, h3, _, h4, _, h5, _, h6, rfl, rfl, rfl, rfl, rfl, rfl⟩

theorem spelled_toJson {r : Region} (h : ∀ x ∈ r.numbers, Spelled (f.toJson x)) :
    Spelled (r.toJson f) := by
  apply spelled_record
  intro m hm
  obtain rfl := List.mem_singleton.1 hm
  apply Spelled.array
  intro v hv
  obtain ⟨x, hx, rfl⟩ := List.mem_map.1 (show v ∈ r.numbers.map f.toJson from hv)
  exact h x hx

end Region

namespace TilingScheme

/-- The levels of a scheme are numbers of 32 bits. -/
structure Fits (t : TilingScheme) : Prop where
  subtreeLevels_lt : t.subtreeLevels < 2 ^ 32
  availableLevels_lt : t.availableLevels < 2 ^ 32

theorem ofJson?_toJson {t : TilingScheme} (h : t.Fits) : ofJson? t.toJson = some t := by
  have hsubtree := required_ofNat h.subtreeLevels_lt
  have havailable := required_ofNat h.availableLevels_lt
  have huri : required (ofTextRecord? "uri") (some (textRecord "uri" t.subtreeUri)) =
      some t.subtreeUri :=
    ofTextRecord?_textRecord "uri" t.subtreeUri
  have hfields : t.toJson.fields? ["subdivisionScheme", "subtreeLevels", "availableLevels",
      "subtrees"] = some [some (.ofString t.subdivision), some (.ofNat t.subtreeLevels),
        some (.ofNat t.availableLevels), some (textRecord "uri" t.subtreeUri)] := rfl
  unfold ofJson?
  rw [hfields]
  dsimp only [Option.bind_eq_bind, Option.bind_some]
  rw [hsubtree, havailable, huri]
  rfl

theorem spelled_toJson (t : TilingScheme) : Spelled t.toJson := by
  apply spelled_record
  intro m hm
  simp only [List.mem_cons, List.not_mem_nil, or_false] at hm
  rcases hm with rfl | rfl | rfl | rfl
  · exact .string t.subdivision
  · exact spelled_ofNat t.subtreeLevels
  · exact spelled_ofNat t.availableLevels
  · exact spelled_textRecord "uri" t.subtreeUri

end TilingScheme

namespace RootTile

/-- The numbers of a root tile. -/
def numbers (r : RootTile) : List Float :=
  r.geometricError :: r.region.numbers

theorem fields?_toJson (f : NumberFormat) (r : RootTile) :
    (r.toJson f).fields? ["boundingVolume", "geometricError", "refine", "content",
      "implicitTiling"] = some [some (r.region.toJson f), some (f.toJson r.geometricError),
        some (.ofString r.refine), r.contentUri.map (textRecord "uri"),
        r.tiling.map TilingScheme.toJson] := by
  obtain ⟨region, geometricError, refine, contentUri, tiling⟩ := r
  cases contentUri <;> cases tiling <;> rfl

theorem ofJson?_toJson_iff {r : RootTile} (h : ∀ t ∈ r.tiling, t.Fits) :
    ofJson? f (r.toJson f) = some r ↔ ∀ x ∈ r.numbers, f.ofJson? (f.toJson x) = some x := by
  have hcontent : Json.optional (ofTextRecord? "uri") (r.contentUri.map (textRecord "uri")) =
      some r.contentUri :=
    optional_map (fun text => nofun) fun text _ => ofTextRecord?_textRecord "uri" text
  have htiling : Json.optional TilingScheme.ofJson? (r.tiling.map TilingScheme.toJson) =
      some r.tiling :=
    optional_map (fun t => nofun) fun t ht => TilingScheme.ofJson?_toJson (h t ht)
  obtain ⟨region, geometricError, refine, contentUri, tiling⟩ := r
  unfold ofJson?
  rw [fields?_toJson]
  simp only [numbers, required, toText?, Option.bind_eq_bind, Option.bind_some, hcontent, htiling,
    Option.pure_def, Option.bind_eq_some_iff, Option.some.injEq, RootTile.mk.injEq, and_true,
    List.forall_mem_cons, ← Region.ofJson?_toJson_iff]
  constructor
  · rintro ⟨_, hregion, _, herror, rfl, rfl⟩
    exact ⟨herror, hregion⟩
  · rintro ⟨herror, hregion⟩
    exact ⟨_, hregion, _, herror, rfl, rfl⟩

theorem spelled_toJson {r : RootTile} (h : ∀ x ∈ r.numbers, Spelled (f.toJson x)) :
    Spelled (r.toJson f) := by
  obtain ⟨herror, hregion⟩ := List.forall_mem_cons.1 h
  apply spelled_record
  intro m hm
  rcases List.mem_append.1 hm with hm | hm
  · rcases List.mem_append.1 hm with hm | hm
    · simp only [List.mem_cons, List.not_mem_nil, or_false] at hm
      rcases hm with rfl | rfl | rfl
      · exact Region.spelled_toJson hregion
      · exact herror
      · exact .string r.refine
    · exact spelled_optionalMember (spelled_textRecord "uri") hm
  · exact spelled_optionalMember TilingScheme.spelled_toJson hm

end RootTile

namespace Tileset

/-- The numbers of a tileset. -/
def numbers (t : Tileset) : List Float :=
  t.geometricError :: t.root.numbers

/-- A tileset is what its record stands for exactly if each of its numbers is. -/
theorem ofJson?_toJson_iff {t : Tileset} (h : ∀ s ∈ t.root.tiling, s.Fits) :
    ofJson? f (t.toJson f) = some t ↔ ∀ x ∈ t.numbers, f.ofJson? (f.toJson x) = some x := by
  have hfields : (t.toJson f).fields? ["asset", "geometricError", "root"] =
      some [some (textRecord "version" t.version), some (f.toJson t.geometricError),
        some (t.root.toJson f)] := rfl
  have hversion := ofTextRecord?_textRecord "version" t.version
  have hiff := RootTile.ofJson?_toJson_iff (f := f) h
  obtain ⟨version, geometricError, root⟩ := t
  unfold ofJson?
  rw [hfields]
  simp only [numbers, required, Option.bind_eq_bind, Option.bind_some, hversion, Option.pure_def,
    Option.bind_eq_some_iff, Option.some.injEq, Tileset.mk.injEq, true_and, List.forall_mem_cons,
    ← hiff]
  constructor
  · rintro ⟨_, herror, _, hroot, rfl, rfl⟩
    exact ⟨herror, hroot⟩
  · rintro ⟨herror, hroot⟩
    exact ⟨_, herror, _, hroot, rfl, rfl⟩

theorem spelled_toJson {t : Tileset} (h : ∀ x ∈ t.numbers, Spelled (f.toJson x)) :
    Spelled (t.toJson f) := by
  obtain ⟨herror, hroot⟩ := List.forall_mem_cons.1 h
  apply spelled_record
  intro m hm
  simp only [List.mem_cons, List.not_mem_nil, or_false] at hm
  rcases hm with rfl | rfl | rfl
  · exact spelled_textRecord "version" t.version
  · exact herror
  · exact RootTile.spelled_toJson hroot

/-- The text of a tileset whose numerals are well-formed spells its record. -/
theorem ofText?_toText {t : Tileset}
    (h : ∀ x ∈ t.numbers, x.isFinite = true → (f.write x).WellFormed) :
    ofText? f (t.toText f) = ofJson? f (t.toJson f) := by
  have hspelled : Spelled (t.toJson f) :=
    spelled_toJson fun x hx => NumberFormat.spelled_toJson (h x hx)
  unfold ofText? toText pretty
  rw [read?_render_end hspelled, Option.bind_some]

/-- **Tilesets are read back.** Let the finite numbers of a tileset be read back from what is
written for them. Then the tileset is read back from its text, whatever its strings are and
whichever optional members it has, exactly if all its numbers are finite. -/
theorem ofText?_toText_iff {t : Tileset}
    (hnumbers : ∀ x ∈ t.numbers, x.isFinite = true → f.ReadsBack x)
    (hlevels : ∀ s ∈ t.root.tiling, s.Fits) :
    ofText? f (t.toText f) = some t ↔ ∀ x ∈ t.numbers, x.isFinite = true := by
  have hwritten (x : Float) (hx : x ∈ t.numbers) (hfinite : x.isFinite = true) :
      (f.write x).WellFormed ∧ f.read (f.write x) = some x :=
    NumberFormat.readsBack_iff.1 (hnumbers x hx hfinite)
  rw [ofText?_toText fun x hx hfinite => (hwritten x hx hfinite).1, ofJson?_toJson_iff hlevels]
  constructor
  · exact fun h x hx => (NumberFormat.ofJson?_toJson_iff.1 (h x hx)).1
  · exact fun h x hx => NumberFormat.ofJson?_toJson_iff.2 ⟨h x hx, (hwritten x hx (h x hx)).2⟩

/-- A tileset without content, whose strings hold quotes, backslashes, control characters and
characters of two and of four bytes. -/
def escaped : Tileset where
  version := "1.1\n\t\x00"
  geometricError := 512.25
  root := {
    region := ⟨-3.141592653589793, -1.5707963267948966, 3.141592653589793, 1.5707963267948966,
      -0.0, 8848.86⟩
    geometricError := 100.0
    refine := "\"ADD\" \\ /\x1f\x7f"
    contentUri := none
    tiling := some ⟨"QUADTREE", 4, 8, "ü/😀/\\u0041.subtree"⟩ }

theorem ofText?_toText_iff_escaped :
    (∀ x ∈ escaped.numbers, x.isFinite = true → NumberFormat.json.ReadsBack x) ∧
    (∀ s ∈ escaped.root.tiling, s.Fits) ∧ (∀ x ∈ escaped.numbers, x.isFinite = true) ∧
    ofText? .json (escaped.toText .json) = some escaped := by
  have hnumbers :
      ∀ x ∈ escaped.numbers, x.isFinite = true → NumberFormat.json.ReadsBack x := by
    decide +kernel
  have hfinite : ∀ x ∈ escaped.numbers, x.isFinite = true := by decide
  have hlevels : ∀ s ∈ escaped.root.tiling, s.Fits := by
    intro s hs
    cases hs
    exact ⟨by decide, by decide⟩
  exact ⟨hnumbers, hlevels, hfinite, (ofText?_toText_iff hnumbers hlevels).2 hfinite⟩

end Tileset

end ImplicitTiling
