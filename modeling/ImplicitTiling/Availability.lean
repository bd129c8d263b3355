import ImplicitTiling.Bitset.Basic
import ImplicitTiling.Error

/-!
# Availability

An availability says which nodes of a block of quadtree levels exist. A pyramid has one row of bits
per level, `4 ^ i` bits at level `i`; the children topology has a single row of `4 ^ n` bits. Within
a row the bits are in Morton order, so the children of bit `j` are bits `4 j` to `4 j + 3` of the
next row. The rows fit the topology by the type; the functions that take rows from outside check
them and name the first thing that is wrong.
-/

namespace ImplicitTiling

/-- Whether rows of bits have the lengths that a topology asks for. -/
def Fits : Topology → List Bitset → Prop
  | .pyramid, rows => ∀ i (h : i < rows.length), rows[i].size = 4 ^ i
  | .children, rows => ∃ row n, rows = [row] ∧ row.size = 4 ^ n

/-- Which nodes of a block of quadtree levels exist. -/
structure Availability where
  topology : Topology
  rows : List Bitset
  fits : Fits topology rows
  deriving DecidableEq

/-- The number of bits in a pyramid of so many levels. -/
def pyramidLength (levels : Nat) : Nat :=
  (4 ^ levels - 1) / 3

/-- The number `k` with `4 ^ k = n`, if there is one. -/
def log4? (n : Nat) : Option Nat :=
  let k := n.log2 / 2
  if 4 ^ k = n then some k else none

/-- The number of levels of a pyramid of `n` bits, if some pyramid has that many and is not
empty. -/
def pyramidLevels? (n : Nat) : Option Nat :=
  (log4? (3 * n + 1)).filter (1 ≤ ·)

theorem four_pow_of_log4? {n k : Nat} (h : log4? n = some k) : n = 4 ^ k := by
  unfold log4? at h
  dsimp only at h
  split at h
  · next hk =>
    cases h
    exact hk.symm
  · contradiction

namespace Availability

/-- The first row of a pyramid whose length is wrong, with its level. -/
def misfit? (rows : List Bitset) : Option (Nat × Bitset) :=
  (rows.zipIdx.find? fun (row, i) => row.size ≠ 4 ^ i).map fun (row, i) => (i, row)

theorem fits_of_misfit?_eq_none {rows : List Bitset} (h : misfit? rows = none) :
    Fits .pyramid rows := by
  intro i hi
  have := List.find?_eq_none.1 (Option.map_eq_none_iff.1 h) (rows[i], i)
    (by simp [List.mk_mem_zipIdx_iff_getElem?, hi])
  simpa using this

/-- The availability with the given rows. A pyramid needs at least one row, the children topology
exactly one. -/
def ofRows (rows : List Bitset) : Topology → Except Precondition Availability
  | .pyramid =>
    if rows.isEmpty then .error .noPyramidLevel
    else
      match h : misfit? rows with
      | some (level, row) => .error (.pyramidLevelSize level row.size (4 ^ level))
      | none => .ok ⟨.pyramid, rows, fits_of_misfit?_eq_none h⟩
  | .children =>
    match rows with
    | [row] =>
      match h : log4? row.size with
      | some n => .ok ⟨.children, [row], row, n, rfl, four_pow_of_log4? h⟩
      | none => .error (.childrenLength row.size)
    | rows => .error (.childrenLevels rows.length)

/-- The availability without any node: a pyramid of so many levels, or a row of `4 ^ levels`
bits. -/
def empty (levels : Nat) : Topology → Availability
  | .pyramid =>
    ⟨.pyramid, (List.range levels).map fun i => Bitset.empty (4 ^ i), by
      intro i h
      simp⟩
  | .children => ⟨.children, [Bitset.empty (4 ^ levels)], Bitset.empty (4 ^ levels), levels, rfl, rfl⟩

/-! ## Reading -/

/-- The number of rows. -/
def levelCount (a : Availability) : Nat :=
  a.rows.length

/-- The row of one level; past the last level a row without bits. -/
def row (a : Availability) (level : Nat) : Bitset :=
  a.rows.getD level (Bitset.empty 0)

/-- The number of bits in all rows. -/
def length (a : Availability) : Nat :=
  match a.topology with
  | .pyramid => pyramidLength a.rows.length
  | .children => (a.row 0).size

/-- Whether the first bit is set. -/
def isAvailable (a : Availability) : Bool :=
  (a.row 0).get 0

/-- The number of set bits. -/
def cardinality (a : Availability) : Nat :=
  (a.rows.map Bitset.count).foldr (· + ·) 0

/-- Whether no bit is set. -/
def isEmpty (a : Availability) : Bool :=
  a.rows.all Bitset.isClear

/-- Whether all bits are set. -/
def isFull (a : Availability) : Bool :=
  a.cardinality == a.length

/-! ## One row for all levels -/

/-- All bits in one row, the root of a pyramid first. -/
def toBitset (a : Availability) : Bitset :=
  match a.topology with
  | .children => a.row 0
  | .pyramid =>
    a.rows.zipIdx.foldl (fun bits (row, i) => bits.copyFrom row (pyramidLength i))
      (Bitset.empty a.length)

/-- The availability whose bits, all in one row of the stated length, are `bits`. -/
def ofBitset (bits : Bitset) (length : Nat) (topology : Topology) :
    Except Precondition Availability :=
  if bits.size ≠ length then .error (.bitsetLength bits.size length)
  else
    match topology with
    | .children => ofRows [bits] .children
    | .pyramid =>
      match pyramidLevels? length with
      | none => .error (.unbalancedPyramid length)
      | some levels =>
        ofRows ((List.range levels).map fun i =>
          bits.slice (pyramidLength i) (pyramidLength (i + 1))) .pyramid

/-- How an availability is written to a file. -/
inductive Shape where
  /-- No bit is set. -/
  | empty
  /-- Every bit is set. -/
  | full
  /-- The bits are mixed and stand one by one. -/
  | bitstream (bits : Bitset)

/-- How this availability is written to a file. -/
def shape (a : Availability) : Shape :=
  if a.isEmpty then .empty
  else if a.isFull then .full
  else .bitstream a.toBitset

/-! ## From the leaves up -/

/-- The row above a row: a bit is set when one of its four children is. -/
def parentRow (below : Bitset) : Bitset :=
  Bitset.ofIndices (below.size / 4) (below.ones.map (· / 4))

/-- The rows of levels `0` to `depth`, from the row of level `depth`. A level that is not kept is
cleared, and every level is taken from the one below it as it stands. -/
def rowsAbove (keep : Nat → Bool) : Nat → Bitset → List Bitset → List Bitset
  | 0, row, rows => row :: rows
  | depth + 1, row, rows =>
    let above := if keep depth then parentRow row else Bitset.empty (4 ^ depth)
    rowsAbove keep depth above (row :: rows)

/-- The pyramid over a row of leaves. -/
def reduce (leaves : Bitset) (leafCount : Nat) (keep : Nat → Bool) :
    Except Precondition Availability :=
  match log4? leafCount with
  | none => .error (.leafCount leafCount)
  | some depth =>
    if leaves.size ≠ leafCount then .error (.leafLength leaves.size leafCount)
    else ofRows (rowsAbove keep depth leaves []) .pyramid

/-- The tiles above existing leaves: a bit is set when a leaf below it is. -/
def ofTileLeaves (leaves : Bitset) (leafCount : Nat) : Except Precondition Availability :=
  reduce leaves leafCount fun _ => true

/-- The content above existing leaves: as for tiles, but a level `i` above the leaves stays clear
unless `i + 1` reaches `minContentLevel`. -/
def ofContentLeaves (leaves : Bitset) (leafCount : Nat) (minContentLevel : Int) :
    Except Precondition Availability :=
  reduce leaves leafCount fun level => minContentLevel ≤ (level : Int) + 1

/-! ## Four quadrants -/

/-- Rows of the four quadrants laid end to end. -/
def joinRows (parts : List Bitset) (block : Nat) : Bitset :=
  parts.zipIdx.foldl (fun bits (part, quadrant) => bits.copyFrom part (quadrant * block))
    (Bitset.empty (4 * block))

/-- The parent of four quadrants in Morton order. For pyramids every level goes one down and the
quadrants' rows are laid end to end under a root, which for tiles is set when some quadrant's root
is and for content stays clear. For children the four rows are laid end to end. -/
def concatenate (parts : List Availability) (topology : Topology) (content : Bool) :
    Except Precondition Availability :=
  if parts.length ≠ 4 then .error (.partCount parts.length)
  else
    let levels := (parts.head?.map levelCount).getD 0
    let length := (parts.head?.map Availability.length).getD 0
    let bad := parts.find? fun p =>
      p.topology ≠ topology || p.levelCount ≠ levels || p.length ≠ length
    match bad with
    | some p =>
      if p.topology ≠ topology then .error (.partTopology p.topology topology)
      else .error .partLevels
    | none =>
      match topology with
      | .pyramid =>
        let root := (Bitset.empty 1).set 0 (!content && parts.any isAvailable)
        let below := (List.range levels).map fun i => joinRows (parts.map (·.row i)) (4 ^ i)
        ofRows (root :: below) .pyramid
      | .children => ofRows [joinRows (parts.map (·.row 0)) length] .children

end Availability

end ImplicitTiling
