import ImplicitTiling.Availability

/-!
# Subtrees

A subtree describes one block of quadtree levels below a tile: which tiles exist, which of them have
content, and which subtrees follow below the last level. The three availabilities agree on the
number of levels by the type.
-/

namespace ImplicitTiling

/-- The availabilities of a block of `levels` quadtree levels. -/
structure Subtree where
  levels : Nat
  tiles : Availability
  content : Availability
  children : Availability
  tiles_topology : tiles.topology = .pyramid
  content_topology : content.topology = .pyramid
  children_topology : children.topology = .children
  tiles_levels : tiles.levelCount = levels
  content_levels : content.levelCount = levels
  children_length : children.length = 4 ^ levels
  deriving DecidableEq

namespace Subtree

/-- Bundles three availabilities that describe `levels` levels. -/
def ofParts (tiles content children : Availability) (levels : Nat) :
    Except Precondition Subtree :=
  if ht : tiles.topology = .pyramid ∧ content.topology = .pyramid
      ∧ children.topology = .children then
    if hl : tiles.levelCount = levels ∧ content.levelCount = levels then
      if hc : children.length = 4 ^ levels then
        .ok ⟨levels, tiles, content, children, ht.1, ht.2.1, ht.2.2, hl.1, hl.2, hc⟩
      else .error (.childSubtreeLength children.length (4 ^ levels))
    else .error (.subtreeLevels levels tiles.levelCount content.levelCount)
  else .error .subtreeTopology

/-- The subtree in which nothing exists. -/
def empty (levels : Nat) : Subtree where
  levels := levels
  tiles := .empty levels .pyramid
  content := .empty levels .pyramid
  children := .empty levels .children
  tiles_topology := rfl
  content_topology := rfl
  children_topology := rfl
  tiles_levels := by simp [Availability.levelCount, Availability.empty]
  content_levels := by simp [Availability.levelCount, Availability.empty]
  children_length := rfl

/-- Whether nothing exists in the subtree or below it. -/
def isEmpty (s : Subtree) : Bool :=
  s.tiles.isEmpty && s.content.isEmpty && s.children.isEmpty

/-- The parent of four sibling subtrees in Morton order, one level deeper than they are. Its root
exists when some quadrant's does and has no content. -/
def concatenate (parts : List Subtree) : Except Precondition Subtree := do
  if parts.length ≠ 4 then throw (.siblingCount parts.length)
  let levels := (parts.head?.map Subtree.levels).getD 0
  if levels < 1 then throw .noSiblingLevel
  if parts.any (·.levels ≠ levels) then throw .siblingLevels
  let tiles ← Availability.concatenate (parts.map Subtree.tiles) .pyramid false
  let content ← Availability.concatenate (parts.map Subtree.content) .pyramid true
  let children ← Availability.concatenate (parts.map Subtree.children) .children false
  ofParts tiles content children (levels + 1)

/-- A row of one bit. -/
def bitRow (v : Bool) : Bitset :=
  (Bitset.empty 1).set 0 v

/-- The subtree of one level that stands for this one in the rank above: its root tile and root
content, and as child bits the tiles below the root, which for a subtree of one level are its child
subtrees. -/
def summary (s : Subtree) : Except Precondition Subtree := do
  let below := if 2 ≤ s.levels then s.tiles.row 1 else s.children.row 0
  let tiles ← Availability.ofRows [bitRow s.tiles.isAvailable] .pyramid
  let content ← Availability.ofRows [bitRow s.content.isAvailable] .pyramid
  let children ← Availability.ofRows [below] .children
  ofParts tiles content children 1

end Subtree

end ImplicitTiling
