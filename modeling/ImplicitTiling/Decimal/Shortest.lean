import ImplicitTiling.Decimal.Numeral

/-!
# The shortest decimal that reads back

Every positive finite double is `m · 2 ^ q` and owns an interval of reals that round to it; the ends
belong to it exactly when `m` is even. `Shortest.decimal` looks on ever finer grids of powers of
ten for a point of that interval. On each grid only the two neighbours of the double itself can be
nearest to it, so the first grid on which one of them hits gives the fewest digits, and the nearer
of two hits gives the digits. All comparisons are made on natural numbers.
-/

namespace ImplicitTiling

/-- What to do when a number lies exactly half-way between two candidates. -/
inductive Tie
  /-- Take the candidate whose last digit is even. -/
  | toEven
  /-- Take the greater candidate. -/
  | up
  deriving DecidableEq, Repr

/-- A positive finite double `mantissa · 2 ^ exponent`, and whether its predecessor is only half a
step away. -/
structure Binary where
  mantissa : Nat
  exponent : Int
  tightBelow : Bool
  deriving DecidableEq, Repr

/-- The magnitude of a finite double; zero has mantissa zero. -/
def Binary.ofFloat (x : Float) : Binary :=
  let bits := x.toBits.toNat
  let raised : Nat := bits / 2 ^ 52 % 2 ^ 11
  let fraction : Nat := bits % 2 ^ 52
  if raised = 0 then ⟨fraction, -1074, false⟩
  else ⟨2 ^ 52 + fraction, (raised : Int) - 1075, decide (fraction = 0 ∧ 1 < raised)⟩

namespace Shortest

/-- A binary and a decimal unit over a common denominator: `c · 10 ^ k` compares with `b · 2 ^ s`
as `c * ten` compares with `b * two`. -/
structure Units where
  two : Nat
  ten : Nat

/-- The units of the grid of multiples of `10 ^ k` for a double with step `2 ^ s`. -/
def units (s k : Int) : Units where
  two := 2 ^ s.toNat * 10 ^ (-k).toNat
  ten := 10 ^ k.toNat * 2 ^ (-s).toNat

/-- The multiple of `10 ^ k` that reads back as `b` and is nearest to it, if there is one. -/
def hit? (tie : Tie) (b : Binary) (k : Int) : Option Nat :=
  let u := units (b.exponent - 2) k
  let centre := 4 * b.mantissa * u.two
  let lower := (if b.tightBelow then 4 * b.mantissa - 1 else 4 * b.mantissa - 2) * u.two
  let upper := (4 * b.mantissa + 2) * u.two
  let closed := b.mantissa % 2 = 0
  let below := centre / u.ten
  let above := below + 1
  let belowHits := if closed then lower ≤ below * u.ten else lower < below * u.ten
  let aboveHits := if closed then above * u.ten ≤ upper else above * u.ten < upper
  if belowHits ∧ aboveHits then
    let twice := 2 * centre
    let middle := (below + above) * u.ten
    if twice < middle then some below
    else if middle < twice then some above
    else match tie with
      | .toEven => some (if below % 2 = 0 then below else above)
      | .up => some above
  else if belowHits then some below
  else if aboveHits then some above
  else none

/-- The first hit on the grids `10 ^ k`, `10 ^ (k - 1)`, …, as coefficient and power of ten. -/
def search (tie : Tie) (b : Binary) : Nat → Int → Nat × Int
  | 0, k => (0, k)
  | fuel + 1, k =>
    match hit? tie b k with
    | some c => (c, k)
    | none => search tie b fuel (k - 1)

/-- The coefficient and power of ten of the shortest decimal for a positive double. The search
starts on a grid too coarse to hit and every double is hit by its seventeenth digit. -/
def decimal (tie : Tie) (b : Binary) : Nat × Int :=
  let log := (Nat.log2 b.mantissa : Int) + b.exponent
  search tie b 24 (log * 30103 / 100000 + 2)

end Shortest

end ImplicitTiling
