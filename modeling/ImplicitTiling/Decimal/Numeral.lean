import ImplicitTiling.Instances

/-!
# Decimal numerals

A numeral is a number as it is written: a sign, digits before and after the point, and perhaps a
power of ten. Reading and writing text keep numerals as they are; what value a numeral has is
decided where it is used.
-/

namespace ImplicitTiling

/-- A decimal digit. -/
abbrev Digit := Fin 10

/-- A number as written. An empty fraction means that no point is written. -/
structure Numeral where
  negative : Bool
  whole : List Digit
  fraction : List Digit
  exponent : Option Int
  deriving DecidableEq, Repr

namespace Digit

/-- The character code of a digit. -/
def octet (d : Digit) : UInt8 :=
  48 + d.val.toUInt8

/-- The digit that a character code stands for, if any. -/
def ofOctet? (o : UInt8) : Option Digit :=
  if h : 48 ≤ o.toNat ∧ o.toNat < 58 then some ⟨o.toNat - 48, by omega⟩ else none

/-- The number that a row of digits spells, most significant digit first. -/
def value (ds : List Digit) : Nat :=
  ds.foldl (fun n d => 10 * n + d.val) 0

/-- The digits of `n` in front of `rest`, with at most `fuel` of them. -/
def spellOnto : Nat → Nat → List Digit → List Digit
  | 0, _, rest => rest
  | fuel + 1, n, rest =>
    let rest := ⟨n % 10, Nat.mod_lt n (by omega)⟩ :: rest
    if n < 10 then rest else spellOnto fuel (n / 10) rest

/-- The digits of a number, most significant first and without leading zeros. -/
def spell (n : Nat) : List Digit :=
  spellOnto (n + 1) n []

end Digit

namespace Numeral

/-- The numeral of a whole number. -/
def ofNat (n : Nat) : Numeral :=
  ⟨false, Digit.spell n, [], none⟩

/-- The whole number below `bound` that is written without sign, point and power of ten. -/
def toNat? (bound : Nat) (n : Numeral) : Option Nat :=
  if n.negative || !n.fraction.isEmpty || n.exponent.isSome then none
  else
    let v := Digit.value n.whole
    if v < bound then some v else none

/-- The text of a power of ten, its sign always written. -/
def exponentOctets (e : Int) : List UInt8 :=
  101 :: (if e < 0 then 45 else 43) :: (Digit.spell e.natAbs).map Digit.octet

/-- The text of the numeral as ASCII codes. -/
def octets (n : Numeral) : List UInt8 :=
  (if n.negative then [45] else [])
    ++ n.whole.map Digit.octet
    ++ (if n.fraction.isEmpty then [] else 46 :: n.fraction.map Digit.octet)
    ++ (match n.exponent with
        | none => []
        | some e => exponentOctets e)

/-- The text of the numeral. -/
def text (n : Numeral) : String :=
  String.ofList (n.octets.map fun o => Char.ofNat o.toNat)

end Numeral

end ImplicitTiling
