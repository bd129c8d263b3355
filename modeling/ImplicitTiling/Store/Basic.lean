import ImplicitTiling.Store.Routine
import ImplicitTiling.Subtree.Decoding
import ImplicitTiling.Subtree.Encoding

/-!
# The subtree store

The store answers requests for the subtree of a rank root with its encoded bytes, from the cache
where it can and otherwise by building it. In the deepest rank every leaf is asked for and the rows
above follow from the leaves. In any other rank the store goes down the quadtree inside the rank, and
each tile of the last level is told by the summaries of the four ranks below it, each of which comes
from the cache where it can. Nothing is asked below a tile in which nothing exists.
-/

namespace ImplicitTiling.Store

/-- The quadrants in Morton order. -/
def quadrants : List UInt64 :=
  [0, 1, 2, 3]

/-- Asks for every leaf `depth` levels below a node, in Morton order. -/
def scanLeaves (n : Node) (depth : Nat) : Build Bitset :=
  (List.range (4 ^ depth)).foldlM
    (fun leaves i => do
      return if ← Build.query (n.descendant depth i) then leaves.set i true else leaves)
    (Bitset.empty (4 ^ depth))

/-- The subtree of a root of the deepest rank. -/
def buildDeepest (s : Schedule) (n : Node) : Build Subtree := do
  if ← Build.query n then
    let depth := s.subtreeLevels - 1
    let leaves ← scanLeaves n depth
    let tiles ← Build.check (Availability.ofTileLeaves leaves (4 ^ depth))
    let content ←
      Build.check (Availability.ofContentLeaves leaves (4 ^ depth) s.minContentLevel)
    Build.check
      (Subtree.ofParts tiles content (.empty s.subtreeLevels .children) s.subtreeLevels)
  else
    Build.note (.nothingUnderRank n)
    return .empty s.subtreeLevels

/-- The subtree of `levels` levels below a node of a rank that is not the deepest; `resolve` gives
the subtrees of the rank roots below it. -/
def descend (resolve : Node → Build Subtree) : Nat → Node → Build Subtree
  | 0, _ => return .empty 0
  | levels + 1, n => do
    if ← Build.query n then
      if levels = 0 then
        let parts ← quadrants.mapM fun q => do
          Build.check (← resolve (n.child q)).summary
        let joined ← Build.check (Subtree.concatenate parts)
        Build.check joined.summary
      else
        let parts ← quadrants.mapM fun q => descend resolve levels (n.child q)
        Build.check (Subtree.concatenate parts)
    else
      Build.note (.nothingUnderTile n)
      return .empty (levels + 1)

/-- Builds the subtree of a rank root and makes the cache hold its bytes. -/
def buildAndSave (build : Node → Build Subtree) (n : Node) : Build (Subtree × ByteArray) := do
  let subtree ← build n
  let bytes := subtree.encode
  Build.save n bytes
  Build.note (.built n.tile subtree.tiles.cardinality subtree.content.cardinality
    subtree.children.cardinality)
  return (subtree, bytes)

/-- The subtree that the cache holds for a rank root, unless the schedule asks to build anew. Bytes
that do not decode are passed over. -/
def fetchDecoded (s : Schedule) (n : Node) : Build (Option Subtree) := do
  if s.reload then return none
  match ← Build.fetch n with
  | none => return none
  | some bytes =>
    match Subtree.decode bytes s.subtreeLevels with
    | .ok subtree => return some subtree
    | .error cause =>
      Build.note (.rebuilding n cause)
      return none

/-- The subtree of a rank root below the one that was asked for. -/
def resolve (s : Schedule) (build : Node → Build Subtree) (n : Node) : Build Subtree :=
  Build.withLock n do
    match ← fetchDecoded s n with
    | some subtree => return subtree
    | none => return (← buildAndSave build n).1

/-- The subtree of a rank root with so many ranks below its own. -/
def buildRank (s : Schedule) : Nat → Node → Build Subtree
  | 0 => buildDeepest s
  | ranks + 1 => descend (resolve s (buildRank s ranks)) s.subtreeLevels

/-- Whether a tile lies within its level. -/
def inLevel (t : Tile) : Bool :=
  t.x.toNat < 2 ^ t.level && t.y.toNat < 2 ^ t.level

/-- The bytes that the cache holds for a rank root, unless the schedule asks to build anew. -/
def fetchBytes (s : Schedule) (n : Node) : Build (Option ByteArray) :=
  if s.reload then return none else Build.fetch n

/-- The encoded subtree of a rank root. Cached bytes are given as they are. -/
def get (s : Schedule) (t : Tile) : Build ByteArray := do
  if !s.isRankRoot t.level then throw (.notRankRoot t.level)
  if !inLevel t then throw (.precondition (.outsideLevel t.level t.x t.y))
  Build.withLock t.node do
    match ← fetchBytes s t.node with
    | some bytes =>
      Build.note (.served t)
      return bytes
    | none => return (← buildAndSave (buildRank s (s.ranksBelow t.level)) t.node).2

section

variable {s : Schedule} {t : Tile}

theorem inLevel_eq_true_iff :
    inLevel t = true ↔ t.x.toNat < 2 ^ t.level ∧ t.y.toNat < 2 ^ t.level := by
  unfold inLevel
  rw [Bool.and_eq_true, decide_eq_true_eq, decide_eq_true_eq]

theorem inLevel_eq_false_iff :
    inLevel t = false ↔ 2 ^ t.level ≤ t.x.toNat ∨ 2 ^ t.level ≤ t.y.toNat := by
  rw [← Bool.not_eq_true, inLevel_eq_true_iff]
  omega

theorem get_eq_throw_notRankRoot (h : s.isRankRoot t.level = false) :
    get s t = throw (.notRankRoot t.level) := by
  unfold get
  simp only [h]
  rfl

theorem get_eq_throw_outsideLevel (hroot : s.isRankRoot t.level = true) (h : inLevel t = false) :
    get s t = throw (.precondition (.outsideLevel t.level t.x t.y)) := by
  unfold get
  simp only [hroot, h]
  rfl

/-- A request is refused at once, or its tile is a rank root within its level. -/
theorem get_cases (s : Schedule) (t : Tile) :
    (¬ (s.isRankRoot t.level = true ∧ inLevel t = true) ∧ ∃ e, get s t = throw e) ∨
      s.isRankRoot t.level = true ∧ inLevel t = true := by
  cases hroot : s.isRankRoot t.level with
  | false => exact .inl ⟨nofun, _, get_eq_throw_notRankRoot hroot⟩
  | true =>
    cases hin : inLevel t with
    | false => exact .inl ⟨nofun, _, get_eq_throw_outsideLevel hroot hin⟩
    | true => exact .inr ⟨rfl, rfl⟩

theorem get_eq_withLock (hroot : s.isRankRoot t.level = true) (hin : inLevel t = true) :
    get s t = Build.withLock t.node (do
      match ← fetchBytes s t.node with
      | some bytes =>
        Build.note (.served t)
        return bytes
      | none => return (← buildAndSave (buildRank s (s.ranksBelow t.level)) t.node).2) := by
  unfold get
  simp only [hroot, hin]
  rfl

end

/-- The subtree of a rank root. -/
def getDecoded (s : Schedule) (t : Tile) : Build Subtree := do
  let bytes ← get s t
  .mk (.done (Subtree.decode bytes s.subtreeLevels))

end ImplicitTiling.Store
