/-!
# Longitude and latitude bounds

A box of longitudes and latitudes, in radians or in degrees, with its edges. All arithmetic is that
of binary64 numbers.
-/

namespace ImplicitTiling

/-- Half a turn, the double nearest to π. -/
def halfTurn : Float := 3.141592653589793

/-- A quarter of a turn. -/
def quarterTurn : Float := 1.5707963267948966

/-- Degrees in a radian, as the quotient of two doubles. -/
def degreesPerRadian : Float := 180.0 / halfTurn

/-- A box of longitudes `west` to `east` and latitudes `south` to `north`, edges included. -/
structure Bounds where
  west : Float
  east : Float
  south : Float
  north : Float
  deriving DecidableEq, Repr

namespace Bounds

/-- Whether two boxes share a point; touching edges count. -/
def intersects (a b : Bounds) : Bool :=
  a.west ≤ b.east && b.west ≤ a.east && a.south ≤ b.north && b.south ≤ a.north

/-- The box in degrees, for a box in radians. -/
def toDegrees (b : Bounds) : Bounds where
  west := b.west * degreesPerRadian
  east := b.east * degreesPerRadian
  south := b.south * degreesPerRadian
  north := b.north * degreesPerRadian

/-- The value held to the range from `low` to `high`; a NaN stays. -/
def clamp (low high value : Float) : Float :=
  if value < low then low else if high < value then high else value

/-- The box in radians of tile `(x, y)` of a level below 64: the level cuts the full turn of
longitudes and the half turn of latitudes into `2 ^ level` equal steps, counted from the south-west
corner. -/
def ofTile (level : Nat) (x y : UInt32) : Bounds :=
  let steps := ((1 : UInt64) <<< level.toUInt64).toFloat
  let latStep := halfTurn / steps
  let lonStep := 2.0 * halfTurn / steps
  let south := -quarterTurn + y.toFloat * latStep
  let west := -halfTurn + x.toFloat * lonStep
  { west := clamp (-halfTurn) halfTurn west
    east := clamp (-halfTurn) halfTurn (west + lonStep)
    south := clamp (-quarterTurn) quarterTurn south
    north := clamp (-quarterTurn) quarterTurn (south + latStep) }

end Bounds

end ImplicitTiling
