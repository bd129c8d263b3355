import ImplicitTiling.Bounds
import ImplicitTiling.Morton

/-!
# Tiles of the quadtree

A tile is named by its level and either its coordinates (`Tile`) or its Morton index (`Node`). The
store works with nodes, whose children and descendants are plain arithmetic on the index; requests
and files speak of tiles.
-/

namespace ImplicitTiling

/-- Tile `(x, y)` of a level. -/
structure Tile where
  level : Nat
  x : UInt32
  y : UInt32
  deriving DecidableEq, Hashable, Repr

/-- The tile of a level that has a given Morton index. -/
structure Node where
  level : Nat
  index : UInt64
  deriving DecidableEq, Hashable, Repr

namespace Tile

/-- The Morton index of the tile. -/
def morton (t : Tile) : UInt64 :=
  Morton.interleave t.x t.y t.level

/-- The tile, named by its Morton index. -/
def node (t : Tile) : Node :=
  ⟨t.level, t.morton⟩

/-- The box of the tile in radians. -/
def bounds (t : Tile) : Bounds :=
  Bounds.ofTile t.level t.x t.y

/-- The child in a quadrant: an odd quadrant goes east, quadrants 2 and 3 go north. -/
def child (t : Tile) (quadrant : UInt32) : Tile where
  level := t.level + 1
  x := 2 * t.x + quadrant % 2
  y := 2 * t.y + quadrant / 2

/-- The four children in Morton order. -/
def children (t : Tile) : List Tile :=
  [t.child 0, t.child 1, t.child 2, t.child 3]

end Tile

namespace Node

/-- The node, named by its coordinates. -/
def tile (n : Node) : Tile :=
  let (x, y) := Morton.deinterleave n.index n.level
  ⟨n.level, x, y⟩

/-- The box of the node in degrees. -/
def degrees (n : Node) : Bounds :=
  n.tile.bounds.toDegrees

/-- The child in a quadrant. -/
def child (n : Node) (quadrant : UInt64) : Node :=
  ⟨n.level + 1, Morton.child n.index quadrant⟩

/-- The `i`-th of the nodes `depth` levels below, in Morton order. -/
def descendant (n : Node) (depth i : Nat) : Node :=
  ⟨n.level + depth, Morton.firstDescendant n.index depth + i.toUInt64⟩

end Node

end ImplicitTiling
