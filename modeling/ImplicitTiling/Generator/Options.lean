import ImplicitTiling.Error

/-!
# Options of the generator

The command line is a list of words. An option is looked up by the first word that equals it, and its
value is the word behind that one, whatever it looks like. Numbers that cannot be read count as not
given.
-/

namespace ImplicitTiling

/-- What the command line asks for. -/
structure GeneratorOptions where
  footprints : String
  output : String := "assets/tdtiles"
  jobs : Nat := 4
  config : Option String := none
  maxLevel : Option Nat := none
  subtreeLevels : Option Nat := none
  deriving DecidableEq, Repr

namespace GeneratorOptions

/-- The word behind the first occurrence of an option. -/
def valueOf? (name : String) : List String → Option String
  | [] => none
  | word :: rest => if word = name then rest.head? else valueOf? name rest

/-- A number below a bound in decimal digits, with or without a plus sign. -/
def toNat? (bound : Nat) (text : String) : Option Nat :=
  let digits := match text.toList with
    | '+' :: rest => rest
    | all => all
  if digits.isEmpty || !digits.all Char.isDigit then none
  else
    let n := digits.foldl (fun n c => 10 * n + (c.toNat - '0'.toNat)) 0
    if n < bound then some n else none

/-- The number behind the first occurrence of an option. -/
def numberOf? (name : String) (bound : Nat) (words : List String) : Option Nat :=
  (valueOf? name words).bind (toNat? bound)

/-- Reads a command line, without the name of the program. -/
def ofWords (words : List String) : Except ConfigError GeneratorOptions :=
  match valueOf? "--footprints" words with
  | none => .error .footprintsRequired
  | some footprints =>
    .ok {
      footprints
      output := (valueOf? "--output" words).getD "assets/tdtiles"
      jobs := (numberOf? "--jobs" (2 ^ 64) words).getD 4
      config := valueOf? "--config" words
      maxLevel := numberOf? "--max-level" (2 ^ 32) words
      subtreeLevels := numberOf? "--subtree-levels" (2 ^ 32) words }

end GeneratorOptions

end ImplicitTiling
