import ImplicitTiling.Json.Basic
import ImplicitTiling.Octets

/-!
# Reading JSON

The grammar is that of RFC 8259 without extensions: no byte order mark, no leading zeros, no
trailing text but blanks. A string is first read as pieces, the octets that stand in it and the
code units that its escapes name, and only then spelled: two units that form a surrogate pair become
one character, and a string with any other surrogate, or whose octets are not UTF-8, has no text.

The functions on values carry a bound on how many values they may read, which `read?` sets above the
length of the text, so it is never met.
-/

namespace ImplicitTiling.Json

/-- Space, tab, line feed and carriage return. -/
def isBlank (o : UInt8) : Bool :=
  o == 32 || o == 9 || o == 10 || o == 13

/-- The text behind its leading blanks. -/
def skipBlanks (s : List UInt8) : List UInt8 :=
  s.dropWhile isBlank

/-! ## Numbers -/

/-- The digits at the start of a text, and the rest. -/
def spanDigits : List UInt8 → List Digit × List UInt8
  | [] => ([], [])
  | o :: s =>
    match Digit.ofOctet? o with
    | none => ([], o :: s)
    | some d =>
      let (ds, rest) := spanDigits s
      (d :: ds, rest)

/-- The whole part of a number: one zero, or digits that start with another. -/
def readWhole? (s : List UInt8) : Option (List Digit × List UInt8) :=
  match spanDigits s with
  | ([], _) => none
  | (d :: ds, rest) => if d.val = 0 ∧ ds ≠ [] then none else some (d :: ds, rest)

/-- The fraction behind a point, empty where no point stands. -/
def readFraction? : List UInt8 → Option (List Digit × List UInt8)
  | 46 :: s =>
    match spanDigits s with
    | ([], _) => none
    | (ds, rest) => some (ds, rest)
  | s => some ([], s)

/-- The sign and digits behind the mark of a power of ten. -/
def readPower? (s : List UInt8) : Option (Int × List UInt8) :=
  let (negative, s) := match s with
    | 43 :: s => (false, s)
    | 45 :: s => (true, s)
    | s => (false, s)
  match spanDigits s with
  | ([], _) => none
  | (ds, rest) =>
    let n : Int := Digit.value ds
    some (if negative then -n else n, rest)

/-- The power of ten of a number, if one is written. -/
def readExponent? (s : List UInt8) : Option (Option Int × List UInt8) :=
  match s with
  | o :: s' => if o == 101 || o == 69 then (readPower? s').map fun (e, rest) => (some e, rest)
    else some (none, s)
  | [] => some (none, s)

/-- A number behind its sign. -/
def readUnsigned? (negative : Bool) (s : List UInt8) : Option (Numeral × List UInt8) := do
  let (whole, s) ← readWhole? s
  let (fraction, s) ← readFraction? s
  let (exponent, s) ← readExponent? s
  return (⟨negative, whole, fraction, exponent⟩, s)

/-- A number. -/
def readNumeral? : List UInt8 → Option (Numeral × List UInt8)
  | 45 :: s => readUnsigned? true s
  | s => readUnsigned? false s

/-! ## Strings -/

/-- A part of a string as written. -/
inductive Piece where
  /-- An octet that stands for itself, or for which a one-letter escape stands. -/
  | octet (o : UInt8)
  /-- A UTF-16 code unit named by its four hexadecimal digits. -/
  | unit (u : Nat)

/-- The value of a hexadecimal digit in either case. -/
def hexValue? (o : UInt8) : Option Nat :=
  if 48 ≤ o && o ≤ 57 then some (o.toNat - 48)
  else if 97 ≤ o && o ≤ 102 then some (o.toNat - 87)
  else if 65 ≤ o && o ≤ 70 then some (o.toNat - 55)
  else none

/-- The code unit of four hexadecimal digits. -/
def unit? (a b c d : UInt8) : Option Nat := do
  let a ← hexValue? a
  let b ← hexValue? b
  let c ← hexValue? c
  let d ← hexValue? d
  return ((a * 16 + b) * 16 + c) * 16 + d

/-- The octet that a one-letter escape stands for. -/
def unescape? (o : UInt8) : Option UInt8 :=
  if o == 34 then some 34
  else if o == 92 then some 92
  else if o == 47 then some 47
  else if o == 98 then some 8
  else if o == 102 then some 12
  else if o == 110 then some 10
  else if o == 114 then some 13
  else if o == 116 then some 9
  else none

/-- The pieces up to the closing quote, put behind those in `read`, which stand in reverse. -/
def readPieces? (read : List Piece) : List UInt8 → Option (List Piece × List UInt8)
  | [] => none
  | 34 :: s => some (read.reverse, s)
  | 92 :: 117 :: a :: b :: c :: d :: s =>
    match unit? a b c d with
    | none => none
    | some u => readPieces? (.unit u :: read) s
  | 92 :: o :: s =>
    match unescape? o with
    | none => none
    | some o => readPieces? (.octet o :: read) s
  | o :: s => if o < 32 then none else readPieces? (.octet o :: read) s

/-- The UTF-8 octets of a code point. -/
def codePointOctets (c : Nat) : List UInt8 :=
  Octets.unpack (Char.ofNat c).toString.toUTF8

/-- The octets that pieces spell; `none` for a surrogate that is not one of a pair. -/
def spellPieces? : List Piece → Option (List UInt8)
  | [] => some []
  | .octet o :: rest => (spellPieces? rest).map (o :: ·)
  | .unit u :: .unit v :: rest =>
    if 0xd800 ≤ u ∧ u < 0xdc00 then
      if 0xdc00 ≤ v ∧ v < 0xe000 then
        (spellPieces? rest).map
          (codePointOctets (0x10000 + (u - 0xd800) * 0x400 + (v - 0xdc00)) ++ ·)
      else none
    else if 0xdc00 ≤ u ∧ u < 0xe000 then none
    else (spellPieces? (.unit v :: rest)).map (codePointOctets u ++ ·)
  | .unit u :: rest =>
    if 0xd800 ≤ u ∧ u < 0xe000 then none
    else (spellPieces? rest).map (codePointOctets u ++ ·)

/-- The text that pieces spell, if they spell any. -/
def pieceText? (pieces : List Piece) : Option String := do
  let octets ← spellPieces? pieces
  String.fromUTF8? (Octets.pack octets)

/-- A string behind its opening quote; its text is `none` where it spells none. -/
def readString? (s : List UInt8) : Option (Option String × List UInt8) :=
  (readPieces? [] s).map fun (pieces, rest) => (pieceText? pieces, rest)

/-! ## Values -/

/-- The rest of a text behind a given word. -/
def stripWord? : List UInt8 → List UInt8 → Option (List UInt8)
  | [], s => some s
  | o :: word, p :: s => if o == p then stripWord? word s else none
  | _ :: _, [] => none

/-- A name, a colon and the blanks about them, from the opening quote on. -/
def readName? : List UInt8 → Option (Option String × List UInt8)
  | 34 :: s =>
    match readString? s with
    | none => none
    | some (name, s) =>
      match skipBlanks s with
      | 58 :: s => some (name, skipBlanks s)
      | _ => none
  | _ => none

mutual

/-- A value that starts at once. -/
def readValue? : Nat → List UInt8 → Option (Json × List UInt8)
  | 0, _ => none
  | _ + 1, 110 :: s => (stripWord? [117, 108, 108] s).map (.null, ·)
  | _ + 1, 116 :: s => (stripWord? [114, 117, 101] s).map (.bool true, ·)
  | _ + 1, 102 :: s => (stripWord? [97, 108, 115, 101] s).map (.bool false, ·)
  | _ + 1, 34 :: s => (readString? s).map fun (text, rest) => (.string text, rest)
  | fuel + 1, 91 :: s =>
    match skipBlanks s with
    | 93 :: s => some (.array [], s)
    | s => readItems? fuel [] s
  | fuel + 1, 123 :: s =>
    match skipBlanks s with
    | 125 :: s => some (.object [], s)
    | s => readMembers? fuel [] s
  | _ + 1, s => (readNumeral? s).map fun (n, rest) => (.number n, rest)

/-- An item and those that follow it, put behind those in `read`, which stand in reverse. -/
def readItems? : Nat → List Json → List UInt8 → Option (Json × List UInt8)
  | 0, _, _ => none
  | fuel + 1, read, s =>
    match readValue? fuel s with
    | none => none
    | some (v, s) =>
      match skipBlanks s with
      | 44 :: s => readItems? fuel (v :: read) (skipBlanks s)
      | 93 :: s => some (.array (v :: read).reverse, s)
      | _ => none

/-- A member and those that follow it, put behind those in `read`, which stand in reverse. -/
def readMembers? :
    Nat → List (Option String × Json) → List UInt8 → Option (Json × List UInt8)
  | 0, _, _ => none
  | fuel + 1, read, s =>
    match readName? s with
    | none => none
    | some (name, s) =>
      match readValue? fuel s with
      | none => none
      | some (v, s) =>
        match skipBlanks s with
        | 44 :: s => readMembers? fuel ((name, v) :: read) (skipBlanks s)
        | 125 :: s => some (.object ((name, v) :: read).reverse, s)
        | _ => none

end

/-- The value that a text spells, blanks around it allowed. -/
def read? (s : List UInt8) : Option Json :=
  match readValue? (2 * s.length + 2) (skipBlanks s) with
  | some (v, rest) => if (skipBlanks rest).isEmpty then some v else none
  | none => none

end ImplicitTiling.Json
