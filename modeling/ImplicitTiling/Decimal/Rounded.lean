/-!
# Rounded quotients
-/

namespace ImplicitTiling.Rounded

/-- The whole number nearest to a quotient; of two that are equally near, the even one. -/
def nearest (dividend divisor : Nat) : Nat :=
  let whole := dividend / divisor
  let twice := 2 * (dividend % divisor)
  if twice < divisor then whole
  else if divisor < twice then whole + 1
  else whole + whole % 2

/-- The text of a quotient, rounded to one decimal. -/
def tenths (dividend divisor : Nat) : String :=
  let n := nearest (10 * dividend) divisor
  s!"{n / 10}.{n % 10}"

end ImplicitTiling.Rounded
