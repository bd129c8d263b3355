import ImplicitTiling.Files.Text
import ImplicitTiling.Json.Fields
import ImplicitTiling.Json.Printer
import ImplicitTiling.Schedule

/-!
# Rank schedules in JSON

A schedule is a record of four fields, each of which may be missing and then has its default. What
is read is validated at once.
-/

namespace ImplicitTiling.Schedule

/-- Levels are whole numbers of 32 bits. -/
def levelLimit : Nat := 2 ^ 32

/-- The record of a schedule. -/
def toJson (s : Schedule) : Json :=
  .record [("min_level", .ofNat s.minLevel), ("max_level", .ofNat s.maxLevel),
    ("subtree_levels", .ofNat s.subtreeLevels), ("reload_subtrees", .bool s.reload)]

/-- The schedule that a record stands for. -/
def ofJson? (v : Json) : Option Schedule := do
  let usual : Schedule := {}
  match ← v.fields? ["min_level", "max_level", "subtree_levels", "reload_subtrees"] with
  | [minLevel, maxLevel, subtreeLevels, reload] =>
    let level := Json.toNat? levelLimit
    return {
      minLevel := ← Json.defaulted usual.minLevel level minLevel
      maxLevel := ← Json.defaulted usual.maxLevel level maxLevel
      subtreeLevels := ← Json.defaulted usual.subtreeLevels level subtreeLevels
      reload := ← Json.defaulted usual.reload Json.toBool? reload }
  | _ => none

/-- Reads and validates a schedule. -/
def ofText (text : List UInt8) : Except Error Schedule :=
  match (Json.read? text).bind ofJson? with
  | none => .error (.config .invalidJson)
  | some s =>
    match s.validate with
    | .error cause => .error (.config cause)
    | .ok () => .ok s

/-- Reads and validates a schedule from a file. -/
def ofFile (content : Except FileError ByteArray) : Except Error Schedule :=
  match content.bind fileText with
  | .error cause => .error (.file cause)
  | .ok octets => ofText octets

end ImplicitTiling.Schedule
