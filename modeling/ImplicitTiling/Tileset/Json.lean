import ImplicitTiling.Decimal.Layout
import ImplicitTiling.Json.Fields
import ImplicitTiling.Json.Printer
import ImplicitTiling.Tileset.Basic

/-!
# Tilesets in JSON

Writing and reading are told how numbers are written and read by a `NumberFormat`, so that what is
said about tilesets needs nothing of numbers but that the two undo one another.
-/

namespace ImplicitTiling

/-- How finite doubles are written as numerals, and numerals read as doubles. -/
structure NumberFormat where
  write : Float → Numeral
  read : Numeral → Option Float

namespace NumberFormat

/-- The numbers of JSON files have the fewest digits that read back. Those from `1e-5` up to below
`1e16` are written with a point and at least one digit behind it. -/
def json : NumberFormat where
  write := Layout.numeral ⟨some (-5, 16), true, .toEven⟩
  read := Numeral.toFloat?

/-- The JSON value of a double; infinities and NaN are null. -/
def toJson (f : NumberFormat) (x : Float) : Json :=
  if x.isFinite then .number (f.write x) else .null

/-- The double that a JSON value stands for. -/
def ofJson? (f : NumberFormat) : Json → Option Float
  | .number n => f.read n
  | _ => none

end NumberFormat

/-- A member that is left out where there is no value. -/
def optionalMember {α : Type} (name : String) (write : α → Json) :
    Option α → List (String × Json)
  | none => []
  | some a => [(name, write a)]

namespace Region

/-- A region is a list of its six numbers. -/
def toJson (f : NumberFormat) (r : Region) : Json :=
  .record [("region", .array
    [f.toJson r.west, f.toJson r.south, f.toJson r.east, f.toJson r.north,
      f.toJson r.minHeight, f.toJson r.maxHeight])]

/-- The region of a list of six numbers. -/
def ofList? (f : NumberFormat) : Json → Option Region
  | .array [west, south, east, north, minHeight, maxHeight] => do
    return ⟨← f.ofJson? west, ← f.ofJson? south, ← f.ofJson? east, ← f.ofJson? north,
      ← f.ofJson? minHeight, ← f.ofJson? maxHeight⟩
  | _ => none

/-- The region of a bounding volume. -/
def ofJson? (f : NumberFormat) (v : Json) : Option Region := do
  match ← v.fields? ["region"] with
  | [region] => Json.required (ofList? f) region
  | _ => none

end Region

/-- A record whose only field is text. -/
def textRecord (name : String) (text : String) : Json :=
  .record [(name, .ofString text)]

/-- The text in a record of one field. -/
def ofTextRecord? (name : String) (v : Json) : Option String := do
  match ← v.fields? [name] with
  | [text] => Json.required Json.toText? text
  | _ => none

namespace TilingScheme

/-- The record of a tiling scheme. -/
def toJson (t : TilingScheme) : Json :=
  .record [("subdivisionScheme", .ofString t.subdivision),
    ("subtreeLevels", .ofNat t.subtreeLevels), ("availableLevels", .ofNat t.availableLevels),
    ("subtrees", textRecord "uri" t.subtreeUri)]

/-- The tiling scheme that a record stands for. Levels are whole numbers of 32 bits. -/
def ofJson? (v : Json) : Option TilingScheme := do
  match ← v.fields? ["subdivisionScheme", "subtreeLevels", "availableLevels", "subtrees"] with
  | [subdivision, subtreeLevels, availableLevels, subtrees] =>
    let level := Json.required (Json.toNat? (2 ^ 32))
    return ⟨← Json.required Json.toText? subdivision, ← level subtreeLevels,
      ← level availableLevels, ← Json.required (ofTextRecord? "uri") subtrees⟩
  | _ => none

end TilingScheme

namespace RootTile

/-- The record of a root tile. -/
def toJson (f : NumberFormat) (r : RootTile) : Json :=
  .record ([("boundingVolume", r.region.toJson f),
      ("geometricError", f.toJson r.geometricError), ("refine", .ofString r.refine)]
    ++ optionalMember "content" (textRecord "uri") r.contentUri
    ++ optionalMember "implicitTiling" TilingScheme.toJson r.tiling)

/-- The root tile that a record stands for. -/
def ofJson? (f : NumberFormat) (v : Json) : Option RootTile := do
  match ← v.fields? ["boundingVolume", "geometricError", "refine", "content",
    "implicitTiling"] with
  | [region, geometricError, refine, content, tiling] =>
    return ⟨← Json.required (Region.ofJson? f) region,
      ← Json.required f.ofJson? geometricError, ← Json.required Json.toText? refine,
      ← Json.optional (ofTextRecord? "uri") content,
      ← Json.optional TilingScheme.ofJson? tiling⟩
  | _ => none

end RootTile

namespace Tileset

/-- The record of a tileset. -/
def toJson (f : NumberFormat) (t : Tileset) : Json :=
  .record [("asset", textRecord "version" t.version),
    ("geometricError", f.toJson t.geometricError), ("root", t.root.toJson f)]

/-- The tileset that a record stands for. -/
def ofJson? (f : NumberFormat) (v : Json) : Option Tileset := do
  match ← v.fields? ["asset", "geometricError", "root"] with
  | [asset, geometricError, root] =>
    return ⟨← Json.required (ofTextRecord? "version") asset,
      ← Json.required f.ofJson? geometricError, ← Json.required (RootTile.ofJson? f) root⟩
  | _ => none

/-- The text of a tileset, on indented lines. -/
def toText (f : NumberFormat) (t : Tileset) : List UInt8 :=
  (t.toJson f).pretty

/-- The tileset that a text spells. -/
def ofText? (f : NumberFormat) (text : List UInt8) : Option Tileset :=
  (Json.read? text).bind (ofJson? f)

end Tileset

end ImplicitTiling
