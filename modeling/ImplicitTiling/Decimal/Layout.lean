import ImplicitTiling.Decimal.Shortest

/-!
# Layouts of decimal text

The shortest digits of a double leave open where the point goes and when a power of ten is written
instead. A `Layout` settles that for one kind of text.
-/

namespace ImplicitTiling

/-- How the digits of a number are laid out. -/
structure Layout where
  /-- The powers of ten of the first digit, from the least up to below the bound, that are written
  with a point; `none` writes every number so. -/
  positional : Option (Int × Int)
  /-- Whether a whole number is given the fraction `0`. -/
  zeroFraction : Bool
  /-- Which way an exact tie between two shortest decimals goes. -/
  tie : Tie
  deriving DecidableEq, Repr

namespace Layout

/-- The digits `ds` with the last of them at `10 ^ k`. -/
def place (layout : Layout) (negative : Bool) (ds : List Digit) (k : Int) : Numeral :=
  let point := (ds.length : Int) + k
  let plain := match layout.positional with
    | none => true
    | some (least, bound) => least ≤ point - 1 && point - 1 < bound
  if plain then
    if 0 ≤ k then
      ⟨negative, ds ++ List.replicate k.toNat 0, if layout.zeroFraction then [0] else [], none⟩
    else if 0 < point then
      ⟨negative, ds.take point.toNat, ds.drop point.toNat, none⟩
    else
      ⟨negative, [0], List.replicate (-point).toNat 0 ++ ds, none⟩
  else
    ⟨negative, ds.take 1, ds.drop 1, some (point - 1)⟩

/-- The numeral of a finite double: its shortest digits in this layout. Zero keeps its sign. -/
def numeral (layout : Layout) (x : Float) : Numeral :=
  let negative := x.toBits >>> 63 == 1
  let b := Binary.ofFloat x
  if b.mantissa = 0 then ⟨negative, [0], if layout.zeroFraction then [0] else [], none⟩
  else
    let (c, k) := Shortest.decimal layout.tie b
    layout.place negative (Digit.spell c) k

end Layout

end ImplicitTiling
