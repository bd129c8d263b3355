import ImplicitTiling.Tile

/-!
# URI templates

A template holds the placeholders `{level}`, `{x}` and `{y}`, which are replaced by the numbers of a
tile. Everything else, stray braces included, stays as it is.
-/

namespace ImplicitTiling.Uri

/-- Replaces every occurrence of `mark` from the left on, without overlaps, once the next `skipped`
characters, which belong to an occurrence, are passed. -/
def replaceFrom (mark by' : List Char) : Nat → List Char → List Char
  | _, [] => []
  | skipped + 1, _ :: s => replaceFrom mark by' skipped s
  | 0, c :: s =>
    if mark.isPrefixOf (c :: s) then by' ++ replaceFrom mark by' (mark.length - 1) s
    else c :: replaceFrom mark by' 0 s

/-- Replaces every occurrence of a mark, which is not empty. -/
def replace (mark by' s : List Char) : List Char :=
  replaceFrom mark by' 0 s

/-- A name in braces. -/
def placeholder (name : String) : List Char :=
  '\x7b' :: name.toList ++ ['\x7d']

/-- The characters of a number in decimal. -/
def digits (n : Nat) : List Char :=
  (toString n).toList

/-- The URI of a tile. -/
def expand (template : String) (t : Tile) : String :=
  let s := replace (placeholder "level") (digits t.level) template.toList
  let s := replace (placeholder "x") (digits t.x.toNat) s
  String.ofList (replace (placeholder "y") (digits t.y.toNat) s)

end ImplicitTiling.Uri
