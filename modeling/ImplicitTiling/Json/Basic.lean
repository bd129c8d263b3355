import ImplicitTiling.Decimal.Numeral

/-!
# JSON values

Numbers stay as written and members keep their order and their repetitions, so that the readers of
single formats can decide about both. A string or a member name that spells no Unicode text, because
of a lone surrogate escape or of bytes that are not UTF-8, is kept as `none`: a reader may pass over
it, and none may use it.
-/

namespace ImplicitTiling

/-- A JSON value. -/
inductive Json where
  | null
  | bool (value : Bool)
  | number (numeral : Numeral)
  | string (text : Option String)
  | array (items : List Json)
  | object (members : List (Option String × Json))
  deriving Repr

namespace Json

/-- A string value. -/
abbrev ofString (s : String) : Json :=
  .string (some s)

/-- A whole number. -/
abbrev ofNat (n : Nat) : Json :=
  .number (.ofNat n)

/-- An object with the given members. -/
def record (members : List (String × Json)) : Json :=
  .object (members.map fun (name, value) => (some name, value))

mutual

/-- How many arrays and objects lie inside one another. -/
def depth : Json → Nat
  | .array items => depthItems items + 1
  | .object members => depthMembers members + 1
  | _ => 0

/-- The greatest depth among the items of an array. -/
def depthItems : List Json → Nat
  | [] => 0
  | v :: rest => max (depth v) (depthItems rest)

/-- The greatest depth among the members of an object. -/
def depthMembers : List (Option String × Json) → Nat
  | [] => 0
  | (_, v) :: rest => max (depth v) (depthMembers rest)

end

end Json

end ImplicitTiling
