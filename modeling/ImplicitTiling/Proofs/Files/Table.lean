import ImplicitTiling.Proofs.Files.Recording

/-!
# Files in a table

Files by their paths, as if all directories were there. The operations of such a file system are
lawful below every directory: `FileTable.lawful`.
-/

namespace ImplicitTiling

/-- Files by their paths. -/
abbrev FileTable : Type :=
  Path → Option ByteArray

namespace FileTable

/-- The bytes of a file. -/
def read (t : FileTable) (p : Path) : Except FileError ByteArray :=
  match t p with
  | some bytes => .ok bytes
  | none => .error .notFound

/-- A table as a file system. -/
def system : FileSystem (StateM FileTable) where
  read p := .mk fun t => (read t p, t)
  write p bytes := .mk fun t => (.ok (), Function.update t p (some bytes))
  makeDirectories _ := .mk fun t => (.ok (), t)
  rename source target := .mk fun t =>
    (.ok (), Function.update (Function.update t source none) target (t source))
  remove p := .mk fun t => (.ok (), Function.update t p none)
  present p := fun t => ((t p).isSome, t)

/-- The files of a table below a directory. -/
def below (top : Path) (t : FileTable) : Files :=
  fun names => t (top.under names)

theorem below_update (top : Path) (t : FileTable) (names : List String)
    (file : Option ByteArray) :
    below top (Function.update t (top.under names) file) =
      Function.update (below top t) names file := by
  funext other
  unfold below
  by_cases h : other = names
  · subst h
    rw [Function.update_self, Function.update_self]
  · rw [Function.update_of_ne h, Function.update_of_ne fun heq => h (Path.under_injective heq)]

theorem lawful (top : Path) : system.Lawful top (below top) where
  view_read _ _ := rfl
  read_ok names t bytes _ h := by
    have hread : read t (top.under names) = .ok bytes := h
    unfold read at hread
    unfold below
    split at hread
    · next hfile => rw [hfile, Except.ok.inj hread]
    · cases hread
  read_notFound names t _ h := by
    have hread : read t (top.under names) = .error .notFound := h
    unfold read at hread
    unfold below
    split at hread
    · cases hread
    · next hfile => exact hfile
  view_write names bytes t other _ h := by
    show below top (Function.update t _ _) other = _
    rw [below_update, Function.update_of_ne h]
  write_ok names bytes t _ _ := by
    show below top (Function.update t _ _) names = _
    rw [below_update, Function.update_self]
  view_makeDirectories _ _ _ := rfl
  view_rename source target t other _ _ hsource htarget := by
    show below top (Function.update (Function.update t _ _) _ _) other = _
    rw [below_update, below_update, Function.update_of_ne, Function.update_of_ne]
    · rintro rfl
      exact hsource (List.prefix_refl _)
    · rintro rfl
      exact htarget (List.prefix_refl _)
  rename_ok source target t bytes _ _ _ h _ := by
    have hfile : t (top.under source) = some bytes := h
    show below top (Function.update (Function.update t _ _) _ (t (top.under source))) = _
    rw [below_update, below_update, hfile]
  rename_error _ _ _ _ _ _ h := nomatch h
  view_remove names t other _ h := by
    show below top (Function.update t _ _) other = _
    rw [below_update, Function.update_of_ne h]

end FileTable

end ImplicitTiling
