import ImplicitTiling.Json.Fields
import ImplicitTiling.Json.Printer

/-!
# The JSON chunk of an encoded subtree

The chunk names for each availability either a constant or a bitstream; a bitstream is a view, a run
of bytes of a buffer. Content availability may be written as a list, of which the first entry
counts, as a single entry, or not at all.
-/

namespace ImplicitTiling

/-- Where the bits of an availability come from. -/
structure BitSource where
  bitstream : Option Nat := none
  availableCount : Option Nat := none
  constant : Option Nat := none
  deriving DecidableEq, Repr

/-- A buffer of packed bits. -/
structure PackedBuffer where
  name : Option String := none
  byteLength : Nat
  deriving DecidableEq, Repr

/-- A run of bytes of a buffer. -/
structure BufferView where
  buffer : Nat
  byteOffset : Nat
  byteLength : Nat
  deriving DecidableEq, Repr

/-- What the JSON chunk says. -/
structure Description where
  buffers : List PackedBuffer
  views : List BufferView
  tiles : BitSource
  content : List BitSource
  children : BitSource
  deriving DecidableEq, Repr

/-- Lengths and indices are whole numbers of 64 bits. -/
def lengthLimit : Nat := 2 ^ 64

/-- A member that is left out where there is no value. -/
def presentMember (name : String) : Option Nat → List (String × Json)
  | none => []
  | some n => [(name, .ofNat n)]

namespace BitSource

/-- The record of a source. -/
def toJson (s : BitSource) : Json :=
  .record (presentMember "bitstream" s.bitstream
    ++ presentMember "availableCount" s.availableCount ++ presentMember "constant" s.constant)

/-- The source that a record stands for. A constant is a whole number of 8 bits. -/
def ofJson? (v : Json) : Option BitSource := do
  match ← v.fields? ["bitstream", "availableCount", "constant"] with
  | [bitstream, availableCount, constant] =>
    return {
      bitstream := ← Json.optional (Json.toNat? lengthLimit) bitstream
      availableCount := ← Json.optional (Json.toNat? lengthLimit) availableCount
      constant := ← Json.optional (Json.toNat? 256) constant }
  | _ => none

end BitSource

namespace PackedBuffer

/-- The record of a buffer. -/
def toJson (b : PackedBuffer) : Json :=
  .record ((match b.name with
      | none => []
      | some name => [("name", .ofString name)])
    ++ [("byteLength", .ofNat b.byteLength)])

/-- The buffer that a record stands for. -/
def ofJson? (v : Json) : Option PackedBuffer := do
  match ← v.fields? ["name", "byteLength"] with
  | [name, byteLength] =>
    return {
      name := ← Json.optional Json.toText? name
      byteLength := ← Json.required (Json.toNat? lengthLimit) byteLength }
  | _ => none

end PackedBuffer

namespace BufferView

/-- The record of a view. -/
def toJson (w : BufferView) : Json :=
  .record [("buffer", .ofNat w.buffer), ("byteOffset", .ofNat w.byteOffset),
    ("byteLength", .ofNat w.byteLength)]

/-- The view that a record stands for. -/
def ofJson? (v : Json) : Option BufferView := do
  match ← v.fields? ["buffer", "byteOffset", "byteLength"] with
  | [buffer, byteOffset, byteLength] =>
    let number := Json.required (Json.toNat? lengthLimit)
    return {
      buffer := ← number buffer
      byteOffset := ← number byteOffset
      byteLength := ← number byteLength }
  | _ => none

end BufferView

namespace Description

/-- The most arrays and objects that content availability may nest, inside the record that holds
it. -/
def contentDepth : Nat := 126

/-- The sources of content availability: a list of them or a single one. The whole value has to be
plain, also where a source passes over members. -/
def contentOfJson? (v : Json) : Option (List BitSource) :=
  if !v.isPlain || contentDepth < v.depth then none
  else (Json.toList? BitSource.ofJson? v) <|> (BitSource.ofJson? v).map ([·])

/-- The record of a description, with content availability as a list. -/
def toJson (d : Description) : Json :=
  .record [("buffers", .array (d.buffers.map PackedBuffer.toJson)),
    ("bufferViews", .array (d.views.map BufferView.toJson)),
    ("tileAvailability", d.tiles.toJson),
    ("contentAvailability", .array (d.content.map BitSource.toJson)),
    ("childSubtreeAvailability", d.children.toJson)]

/-- The description that a record stands for. -/
def ofJson? (v : Json) : Option Description := do
  match ← v.fields? ["buffers", "bufferViews", "tileAvailability", "contentAvailability",
    "childSubtreeAvailability"] with
  | [buffers, views, tiles, content, children] =>
    return {
      buffers := ← Json.defaulted [] (Json.toList? PackedBuffer.ofJson?) buffers
      views := ← Json.defaulted [] (Json.toList? BufferView.ofJson?) views
      tiles := ← Json.required BitSource.ofJson? tiles
      content := (← Json.optional contentOfJson? content).getD []
      children := ← Json.required BitSource.ofJson? children }
  | _ => none

end Description

end ImplicitTiling
