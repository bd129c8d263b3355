import ImplicitTiling.Decimal.Numeral

/-!
# The value of a numeral as a double

A numeral is read in two roundings. Its leading digits, as many as fit a 64-bit word, make a whole
number that is rounded to a double; that double is then multiplied or divided by a power of ten that
is itself a double. The result can differ in the last bit from the double nearest to the numeral.
A value past the largest double is refused, and one below the least is zero.
-/

namespace ImplicitTiling

namespace Numeral

/-- The double nearest to `10 ^ k`, for `k` at most 308. -/
def powerOfTen (k : Nat) : Float :=
  Float.ofScientific 1 false k

/-- Appends digits to a significand until the next one would leave 64 bits; also gives the digits
that were left over. -/
def gather : Nat → List Digit → Nat × List Digit
  | significand, [] => (significand, [])
  | significand, d :: ds =>
    let next := 10 * significand + d.val
    if next < 2 ^ 64 then gather next ds else (significand, d :: ds)

/-- `x · 10 ^ e` for an `e` below -308, dividing by `10 ^ 308` until the rest is in range or nothing
is left. -/
def scaleDown : Nat → Float → Int → Float
  | 0, x, _ => x
  | fuel + 1, x, e =>
    if -308 ≤ e then x / powerOfTen e.natAbs
    else if x == 0 then x
    else scaleDown fuel (x / powerOfTen 308) (e + 308)

/-- `x · 10 ^ e` for a finite `x` that is not negative; `none` past the largest double. -/
def scale? (x : Float) (e : Int) : Option Float :=
  if 308 < e then if x == 0 then some x else none
  else if 0 ≤ e then
    let y := x * powerOfTen e.toNat
    if y.isInf then none else some y
  else some (scaleDown (e.natAbs / 308 + 1) x e)

/-- The double that a numeral stands for; `none` if it is out of range. -/
def toFloat? (n : Numeral) : Option Float :=
  let (whole, dropped) := gather 0 n.whole
  let (significand, ignored) := gather whole n.fraction
  let shift := (dropped.length : Int) - (n.fraction.length - ignored.length : Nat)
  let magnitude := scale? significand.toUInt64.toFloat (shift + n.exponent.getD 0)
  magnitude.map fun x => if n.negative then -x else x

end Numeral

end ImplicitTiling
