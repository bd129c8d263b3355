import ImplicitTiling.Decimal.Scaled
import ImplicitTiling.Json.Reader

/-!
# Records in JSON

A record of named fields is written as an object, whose unknown members are passed over and whose
known members may stand once each, or as an array of the fields in their order, from whose end
fields may be missing. What a missing field means is for the field to say: `required`, `optional`
and `defaulted` read one.
-/

namespace ImplicitTiling.Json

/-- The members of an object if every name is text. -/
def namedMembers? (members : List (Option String × Json)) : Option (List (String × Json)) :=
  members.mapM fun (name, v) => name.map (·, v)

/-- The values of the fields `names`, in that order and `none` where missing; `none` altogether if
the value is not a record of such fields. -/
def fields? (names : List String) : Json → Option (List (Option Json))
  | .object members =>
    match namedMembers? members with
    | none => none
    | some members =>
      if names.any fun name => 1 < members.countP (·.1 == name) then none
      else some (names.map fun name => List.lookup name members)
  | .array items =>
    if names.length < items.length then none
    else some ((List.range names.length).map (items[·]?))
  | _ => none

/-- A field that must be there. -/
def required {α : Type} (read : Json → Option α) : Option Json → Option α
  | none => none
  | some v => read v

/-- A field that may be missing or null. -/
def optional {α : Type} (read : Json → Option α) : Option Json → Option (Option α)
  | none => some none
  | some .null => some none
  | some v => (read v).map some

/-- A field that has a given value where it is missing. -/
def defaulted {α : Type} (value : α) (read : Json → Option α) : Option Json → Option α
  | none => some value
  | some v => read v

/-- A truth value. -/
def toBool? : Json → Option Bool
  | .bool b => some b
  | _ => none

/-- A whole number below `bound`. -/
def toNat? (bound : Nat) : Json → Option Nat
  | .number n => n.toNat? bound
  | _ => none

/-- A string that spells text. -/
def toText? : Json → Option String
  | .string text => text
  | _ => none

/-- A list of values of one kind. -/
def toList? {α : Type} (read : Json → Option α) : Json → Option (List α)
  | .array items => items.mapM read
  | _ => none

mutual

/-- Whether every string and name in a value spells text and every number is a whole number of 64
bits or has a double. -/
def isPlain : Json → Bool
  | .number n => (n.toNat? (2 ^ 64)).isSome || n.toFloat?.isSome
  | .string text => text.isSome
  | .array items => isPlainItems items
  | .object members => isPlainMembers members
  | _ => true

/-- Whether all items are plain. -/
def isPlainItems : List Json → Bool
  | [] => true
  | v :: rest => isPlain v && isPlainItems rest

/-- Whether all names and values of members are plain. -/
def isPlainMembers : List (Option String × Json) → Bool
  | [] => true
  | (name, v) :: rest => name.isSome && isPlain v && isPlainMembers rest

end

end ImplicitTiling.Json
