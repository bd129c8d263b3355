import ImplicitTiling.Instances

/-!
# Layouts of availability
-/

namespace ImplicitTiling

/-- Which bits an availability holds. -/
inductive Topology
  /-- One row of bits per level, `4 ^ i` of them at level `i`. -/
  | pyramid
  /-- A single row of `4 ^ n` bits, those of the subtrees below. -/
  | children
  deriving DecidableEq, Repr

/-- The name of a topology in messages. -/
def Topology.name : Topology → String
  | .pyramid => "Pyramid"
  | .children => "Children"

end ImplicitTiling
