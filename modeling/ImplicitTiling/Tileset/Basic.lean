import ImplicitTiling.Schedule
import ImplicitTiling.Tile

/-!
# Tilesets

A tileset tells a viewer where to start: the bounds of the root tile and, for an implicit quadtree,
how many levels there are and where their subtrees are found.
-/

namespace ImplicitTiling

/-- A box of longitudes and latitudes in radians and heights in metres. -/
structure Region where
  west : Float
  south : Float
  east : Float
  north : Float
  minHeight : Float
  maxHeight : Float
  deriving DecidableEq, Repr

/-- How the tiles below a root follow from templates. -/
structure TilingScheme where
  subdivision : String
  subtreeLevels : Nat
  availableLevels : Nat
  subtreeUri : String
  deriving DecidableEq, Repr

/-- The root tile of a tileset. -/
structure RootTile where
  region : Region
  geometricError : Float
  refine : String
  contentUri : Option String
  tiling : Option TilingScheme
  deriving DecidableEq, Repr

/-- A tileset. -/
structure Tileset where
  version : String
  geometricError : Float
  root : RootTile
  deriving DecidableEq, Repr

/-- What a tileset says beyond the levels that are served. -/
structure TilesetOptions where
  subtreeUri : String := "subtrees/\x7blevel\x7d.\x7bx\x7d.\x7by\x7d.subtree"
  contentUri : Option String := some "content/content_\x7blevel\x7d__\x7bx\x7d_\x7by\x7d.glb"
  geometricError : Float := 100.0
  minHeight : Float := 0.0
  maxHeight : Float := 100.0
  refine : String := "ADD"

namespace Tileset

/-- The tileset whose root is an implicit quadtree over the levels of a schedule. Subtrees are
addressed from level 0, so the schedule has to start there. -/
def implicit (s : Schedule) (options : TilesetOptions) : Except ConfigError Tileset := do
  s.validate
  if s.minLevel ≠ 0 then throw (.tilesetStart s.minLevel)
  let world := Bounds.ofTile 0 0 0
  return {
    version := "1.1"
    geometricError := options.geometricError
    root := {
      region := ⟨world.west, world.south, world.east, world.north, options.minHeight,
        options.maxHeight⟩
      geometricError := options.geometricError
      refine := options.refine
      contentUri := options.contentUri
      tiling := some ⟨"QUADTREE", s.subtreeLevels, s.maxLevel + 1, options.subtreeUri⟩ } }

end Tileset

end ImplicitTiling
