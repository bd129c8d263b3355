import ImplicitTiling.Proofs.Tileset.Templates
import ImplicitTiling.Tileset.Basic

/-!
# The URIs of tiles

`expand_at_once`: a URI is its template with all placeholders replaced at once. By the usual template
every tile has a URI of its own: its name in the directory of subtrees holds the three numbers of
the tile, parted by dots (`expand_subtreeUri`, `subtreeName_injective`).
-/

namespace ImplicitTiling.Uri

theorem digits_append_inj {n n' : Nat} {c : Char} (hc : c.isDigit = false) {s s' : List Char}
    (h : digits n ++ c :: s = digits n' ++ c :: s') : n = n' ∧ s = s' := by
  obtain ⟨hdigits, hs⟩ := append_cons_inj hc (fun _ => isDigit_of_mem_digits)
    (fun _ => isDigit_of_mem_digits) h
  exact ⟨digits_injective hdigits, hs⟩

/-- The name of the file of a subtree, character by character. -/
def subtreeCharacters (t : Tile) : List Char :=
  digits t.level ++ '.' :: (digits t.x.toNat ++ '.' :: (digits t.y.toNat ++ ".subtree".toList))

/-- The name of the file of a subtree. -/
def subtreeName (t : Tile) : String :=
  .ofList (subtreeCharacters t)

/-- The usual template puts the subtrees into one directory. -/
theorem expand_subtreeUri (t : Tile) :
    (expand ({} : TilesetOptions).subtreeUri t).toList =
      "subtrees".toList ++ '/' :: subtreeCharacters t := by
  rw [expand_eq_fill, String.toList_ofList]
  simp [fill, fillFrom, hit?, numbers, placeholder, subtreeCharacters]

theorem subtreeName_injective {t t' : Tile} (h : subtreeName t = subtreeName t') : t = t' := by
  have hcharacters : subtreeCharacters t = subtreeCharacters t' :=
    String.ofList_injective h
  have hdot : '.'.isDigit = false := rfl
  obtain ⟨hlevel, hrest⟩ := digits_append_inj hdot hcharacters
  obtain ⟨hx, hrest⟩ := digits_append_inj hdot hrest
  obtain ⟨hy, -⟩ := digits_append_inj hdot hrest
  obtain ⟨level, x, y⟩ := t
  obtain ⟨level', x', y'⟩ := t'
  obtain rfl : level = level' := hlevel
  obtain rfl : x = x' := UInt32.toNat_inj.1 hx
  obtain rfl : y = y' := UInt32.toNat_inj.1 hy
  rfl

/-- **Templates are filled at once.** The URI of a tile is the template with every placeholder
replaced in a single pass from the left, and it does not depend on the order in which the three
numbers are put in. The usual template gives every tile a URI of its own. -/
theorem expand_at_once :
    (∀ (template : String) (t : Tile),
      expand template t = String.ofList (fill (numbers t) template.toList)) ∧
    (∀ (template : String) (t : Tile) (order : List (String × Nat)), order.Perm (numbers t) →
      String.ofList (replaceEach order template.toList) = expand template t) ∧
    Function.Injective (expand ({} : TilesetOptions).subtreeUri) := by
  refine ⟨expand_eq_fill, ?_, ?_⟩
  · intro template t order horder
    have hnamed : Named order := fun v hv => named_numbers t v (horder.mem_iff.1 hv)
    have hnodup : (order.map Prod.fst).Nodup :=
      (horder.map Prod.fst).nodup_iff.2 (by decide : ["level", "x", "y"].Nodup)
    rw [expand_eq_fill, replaceEach_eq_fill hnamed, fill_perm hnamed hnodup horder]
  · intro t t' h
    have hcharacters := congrArg String.toList h
    rw [expand_subtreeUri, expand_subtreeUri] at hcharacters
    have hname := (List.cons.inj (List.append_cancel_left hcharacters)).2
    exact subtreeName_injective (congrArg String.ofList hname)

/-- A template with placeholders inside braces that could become placeholders themselves. -/
def nestedTemplate : String :=
  "\x7b\x7bx\x7dlevel\x7d/\x7b\x7by\x7d\x7d/\x7blev\x7bx\x7del\x7d\x7blevel\x7d\x7b"

theorem expand_at_once_nested :
    expand nestedTemplate ⟨4, 3, 11⟩ =
      "\x7b3level\x7d/\x7b11\x7d/\x7blev3el\x7d4\x7b" ∧
    [("y", 11), ("level", 4), ("x", 3)].Perm (numbers ⟨4, 3, 11⟩) ∧
    String.ofList (replaceEach [("y", 11), ("level", 4), ("x", 3)] nestedTemplate.toList) =
      expand nestedTemplate ⟨4, 3, 11⟩ ∧
    expand ({} : TilesetOptions).subtreeUri ⟨1, 1, 0⟩ ≠
      expand ({} : TilesetOptions).subtreeUri ⟨1, 0, 1⟩ := by
  obtain ⟨honce, horder, hinjective⟩ := expand_at_once
  have hperm : [("y", 11), ("level", 4), ("x", 3)].Perm (numbers ⟨4, 3, 11⟩) := by decide
  refine ⟨(honce _ _).trans (by decide), hperm, horder nestedTemplate _ _ hperm, ?_⟩
  exact fun h => absurd (hinjective h) (by decide)

end ImplicitTiling.Uri
