import ImplicitTiling.Files.Text
import ImplicitTiling.Json.Fields
import ImplicitTiling.Tile

/-!
# Footprints

An index of feature boxes in degrees, which tells whether any feature touches a tile. Its text is a
JSON list of lists of four numbers, west, south, east and north.
-/

namespace ImplicitTiling

/-- The boxes of all features, in the order in which they were given. -/
structure Footprints where
  boxes : Array Bounds := #[]

/-- The lesser of two numbers; a NaN gives way, and of equal numbers the first is kept. -/
def lesser (a b : Float) : Float :=
  if a.isNaN || b < a then b else a

/-- The greater of two numbers; a NaN gives way, and of equal numbers the first is kept. -/
def greater (a b : Float) : Float :=
  if a.isNaN || a < b then b else a

/-- The least box that holds two boxes. -/
def Bounds.union (a b : Bounds) : Bounds where
  west := lesser a.west b.west
  east := greater a.east b.east
  south := lesser a.south b.south
  north := greater a.north b.north

namespace Footprints

/-- Adds a box. -/
def push (index : Footprints) (box : Bounds) : Footprints :=
  ⟨index.boxes.push box⟩

/-- The number of boxes. -/
def size (index : Footprints) : Nat :=
  index.boxes.size

/-- Whether there are no boxes. -/
def isEmpty (index : Footprints) : Bool :=
  index.boxes.isEmpty

/-- The least box that holds all boxes, if there are any. -/
def extent? (index : Footprints) : Option Bounds :=
  match index.boxes.toList with
  | [] => none
  | box :: rest => some (rest.foldl Bounds.union box)

/-- Whether some box shares a point with the given one. -/
def touches (index : Footprints) (box : Bounds) : Bool :=
  index.boxes.any (·.intersects box)

/-- The four numbers of one feature. -/
def corners? : Json → Option (Float × Float × Float × Float)
  | .array [.number w, .number s, .number e, .number n] => do
    return (← w.toFloat?, ← s.toFloat?, ← e.toFloat?, ← n.toFloat?)
  | _ => none

/-- Reads an index. A box whose west lies beyond its east or whose south lies beyond its north is
refused. -/
def ofText (text : List UInt8) : Except StorageError Footprints :=
  match (Json.read? text).bind (Json.toList? corners?) with
  | none => .error .invalidFootprints
  | some features =>
    features.foldlM (fun index (west, south, east, north) =>
      if east < west || north < south then .error (.invertedFootprint west south east north)
      else .ok (index.push ⟨west, east, south, north⟩)) {}

/-- Reads an index from a file. -/
def ofFile (content : Except FileError ByteArray) : Except Error Footprints :=
  match content.bind fileText with
  | .error cause => .error (.file cause)
  | .ok octets => (ofText octets).mapError .storage

end Footprints

end ImplicitTiling
