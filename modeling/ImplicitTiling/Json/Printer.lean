import ImplicitTiling.Json.Basic
import ImplicitTiling.Octets

/-!
# Writing JSON

One printer serves two styles: on one line without blanks, and indented by two spaces with every
item and member on a line of its own. The text is a list of UTF-8 octets; within strings only
quotes, backslashes and control characters are escaped. A string that spells no text is written as a
lone surrogate escape, which reads back as just that.
-/

namespace ImplicitTiling.Json

/-- How values are spread over lines. -/
inductive Style where
  /-- All on one line, without blanks. -/
  | compact
  /-- One line per item, at an indentation of so many steps. -/
  | indented (steps : Nat)

namespace Style

/-- The style of what lies inside an array or object. -/
def deeper : Style → Style
  | .compact => .compact
  | .indented steps => .indented (steps + 1)

/-- What precedes an item or a closing bracket. -/
def gap : Style → List UInt8
  | .compact => []
  | .indented steps => 10 :: List.replicate (2 * steps) 32

/-- What stands between a name and its value. -/
def colon : Style → List UInt8
  | .compact => [58]
  | .indented _ => [58, 32]

end Style

/-- The code of a hexadecimal digit below 16, in lower case. -/
def hexOctet (n : UInt8) : UInt8 :=
  if n < 10 then 48 + n else 87 + n

/-- One octet of a string as it stands between the quotes. -/
def escapeOctet (o : UInt8) : List UInt8 :=
  if o == 34 then [92, 34]
  else if o == 92 then [92, 92]
  else if o == 8 then [92, 98]
  else if o == 12 then [92, 102]
  else if o == 10 then [92, 110]
  else if o == 13 then [92, 114]
  else if o == 9 then [92, 116]
  else if o < 32 then [92, 117, 48, 48, hexOctet (o / 16), hexOctet (o % 16)]
  else [o]

/-- A string in quotes. -/
def quoted : Option String → List UInt8
  | some s => 34 :: (Octets.unpack s.toUTF8).flatMap escapeOctet ++ [34]
  | none => [34, 92, 117, 100, 56, 48, 48, 34]

mutual

/-- The text of a value. -/
def render (style : Style) : Json → List UInt8
  | .null => [110, 117, 108, 108]
  | .bool true => [116, 114, 117, 101]
  | .bool false => [102, 97, 108, 115, 101]
  | .number n => n.octets
  | .string s => quoted s
  | .array [] => [91, 93]
  | .array (v :: rest) =>
    91 :: style.deeper.gap ++ render style.deeper v ++ renderItems style.deeper rest
      ++ style.gap ++ [93]
  | .object [] => [123, 125]
  | .object ((name, v) :: rest) =>
    123 :: style.deeper.gap ++ quoted name ++ style.colon ++ render style.deeper v
      ++ renderMembers style.deeper rest ++ style.gap ++ [125]

/-- Further items of an array, each behind a comma. -/
def renderItems (style : Style) : List Json → List UInt8
  | [] => []
  | v :: rest => 44 :: style.gap ++ render style v ++ renderItems style rest

/-- Further members of an object, each behind a comma. -/
def renderMembers (style : Style) : List (Option String × Json) → List UInt8
  | [] => []
  | (name, v) :: rest =>
    44 :: style.gap ++ quoted name ++ style.colon ++ render style v ++ renderMembers style rest

end

/-- The text of a value on one line. -/
def compact (v : Json) : List UInt8 :=
  render .compact v

/-- The text of a value on indented lines. -/
def pretty (v : Json) : List UInt8 :=
  render (.indented 0) v

end ImplicitTiling.Json
