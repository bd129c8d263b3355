import ImplicitTiling.Footprints

/-!
# Oracles

An oracle says whether anything exists in a tile. It may answer the same tile differently at
different times and may fail, so it is a function of the number of calls before this one and of the
tile.
-/

namespace ImplicitTiling

/-- Answers query number `call`, counted from zero, about a tile. -/
abbrev Oracle : Type :=
  (call : Nat) → Node → Except Error Bool

namespace Oracle

/-- Gives every query the same answer. -/
def fixed (answer : Bool) : Oracle :=
  fun _ _ => .ok answer

/-- Gives the listed answers in turn and starts over at their end. -/
def cyclic (answers : Array Bool) : Oracle :=
  fun call _ => .ok (answers.getD (call % answers.size) false)

/-- Says whether a feature touches the tile. -/
def ofFootprints (index : Footprints) : Oracle :=
  fun _ n => .ok (index.touches n.degrees)

/-- Fails one call, by its number. -/
def failingAt (oracle : Oracle) (failure : Error) (failed : Nat) : Oracle :=
  fun call n => if call = failed then .error failure else oracle call n

/-- Fails every query about a tile that touches a box in degrees. -/
def failingIn (oracle : Oracle) (failure : Error) (box : Bounds) : Oracle :=
  fun call n => if n.degrees.intersects box then .error failure else oracle call n

end Oracle

end ImplicitTiling
