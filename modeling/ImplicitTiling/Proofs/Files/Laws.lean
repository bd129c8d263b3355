import ImplicitTiling.Files.System
import Mathlib.Logic.Function.Basic

/-!
# What file operations do

`FileSystem.Lawful` says of the files below one directory what each operation may change and what its
answer tells. Any operation may fail; a write that fails may leave anything in the file that it
wrote. Different names lead to different files.
-/

namespace ImplicitTiling

/-- The names below a path, as far as they are names: no step that stays or goes up, and no slash. -/
def Path.IsName (name : String) : Prop :=
  Step.ofPart name = .down name ∧ '/' ∉ name.toList

/-- What lies below a path under some names. -/
def Path.under (p : Path) (names : List String) : Path :=
  { p with names := p.names ++ names }

@[simp] theorem Path.under_nil (p : Path) : p.under [] = p := by
  unfold under
  rw [List.append_nil]

@[simp] theorem Path.child_under (p : Path) (names : List String) (name : String) :
    (p.under names).child name = p.under (names ++ [name]) := by
  unfold under child
  rw [List.append_assoc]

theorem Path.child_eq_under (p : Path) (name : String) : p.child name = p.under [name] := rfl

@[simp] theorem Path.parent_under_concat (p : Path) (names : List String) (name : String) :
    (p.under (names ++ [name])).parent = p.under names := by
  unfold under parent
  rw [← List.append_assoc, List.dropLast_concat]

theorem Path.under_injective {p : Path} {names names' : List String}
    (h : p.under names = p.under names') : names = names' := by
  injection h with _ hnames
  exact List.append_cancel_left hnames

/-- The files below a directory, by the names that lead to them from there. -/
abbrev Files : Type :=
  List String → Option ByteArray

/-- The operations of a file system whose state `c` has the files `view c` below the directory
`top`. -/
structure FileSystem.Lawful {σ : Type} (files : FileSystem (StateM σ)) (top : Path)
    (view : σ → Files) : Prop where
  view_read : ∀ p c, view ((files.read p).run.run c).2 = view c
  read_ok : ∀ names c bytes, (∀ name ∈ names, Path.IsName name) →
    ((files.read (top.under names)).run.run c).1 = .ok bytes → view c names = some bytes
  read_notFound : ∀ names c, (∀ name ∈ names, Path.IsName name) →
    ((files.read (top.under names)).run.run c).1 = .error .notFound → view c names = none
  view_write : ∀ names bytes c other, (∀ name ∈ names, Path.IsName name) → other ≠ names →
    view ((files.write (top.under names) bytes).run.run c).2 other = view c other
  write_ok : ∀ names bytes c, (∀ name ∈ names, Path.IsName name) →
    ((files.write (top.under names) bytes).run.run c).1 = .ok () →
      view ((files.write (top.under names) bytes).run.run c).2 names = some bytes
  view_makeDirectories : ∀ names c, (∀ name ∈ names, Path.IsName name) →
    view ((files.makeDirectories (top.under names)).run.run c).2 = view c
  view_rename : ∀ source target c other, (∀ name ∈ source, Path.IsName name) →
    (∀ name ∈ target, Path.IsName name) → ¬ source <+: other → ¬ target <+: other →
    view ((files.rename (top.under source) (top.under target)).run.run c).2 other = view c other
  rename_ok : ∀ source target c bytes, (∀ name ∈ source, Path.IsName name) →
    (∀ name ∈ target, Path.IsName name) → source ≠ target → view c source = some bytes →
    ((files.rename (top.under source) (top.under target)).run.run c).1 = .ok () →
      view ((files.rename (top.under source) (top.under target)).run.run c).2 =
        Function.update (Function.update (view c) source none) target (some bytes)
  rename_error : ∀ source target c e, (∀ name ∈ source, Path.IsName name) →
    (∀ name ∈ target, Path.IsName name) →
    ((files.rename (top.under source) (top.under target)).run.run c).1 = .error e →
      view ((files.rename (top.under source) (top.under target)).run.run c).2 = view c
  view_remove : ∀ names c other, (∀ name ∈ names, Path.IsName name) → other ≠ names →
    view ((files.remove (top.under names)).run.run c).2 other = view c other

end ImplicitTiling
