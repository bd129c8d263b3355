import ImplicitTiling.Proofs.Files.Recording
import ImplicitTiling.Proofs.Generator.Layout
import Mathlib.Data.String.Basic

/-!
# Files of blobs

What a call to the disk cache makes of the answers of the file system, and the names of the files: no
two blobs have the same names (`names_injective`), a draft is no blob's file
(`fileName_ne_draftName`), and file systems take names that long (`utf8ByteSize_levelName_le` and
those behind it).
-/

namespace ImplicitTiling.DiskCache

open Generator Uri

/-! ## Calls -/

/-- What becomes of the answer to reading the file of a blob. -/
def found : Except FileError ByteArray → Except FileError (Option ByteArray)
  | .error .notFound => .ok none
  | .error e => .error e
  | .ok bytes => (Blob.decompress bytes).map some

theorem run_loadBlob {σ : Type} (files : FileSystem (StateM σ)) (base : Path) (n : Node) (c : σ) :
    (loadBlob files base n).run.run c =
      (found ((files.read (blobPath base n)).run.run c).1,
        ((files.read (blobPath base n)).run.run c).2) := by
  unfold loadBlob
  simp only [ExceptT.run_mk, StateT.run_bind]
  cases (files.read (blobPath base n)).run.run c with
  | mk result c' =>
    cases result with
    | error e => cases e <;> rfl
    | ok bytes => rfl

theorem found_eq_error {e : FileError} (h : e ≠ .notFound) : found (.error e) = .error e := by
  cases e with
  | notFound => exact absurd rfl h
  | _ => rfl

theorem run_get {σ : Type} (files : FileSystem (StateM σ)) (base : Path) (process : Nat)
    (n : Node) (c : σ) : ((cache files base process).get n).run c =
      (((loadBlob files base n).run.run c).1.mapError
          fun e => .storage (.unreadable (blobPath base n).text e),
        ((loadBlob files base n).run.run c).2) := by
  unfold cache
  simp only [StateT.run_bind]
  cases (loadBlob files base n).run.run c with
  | mk result c' => cases result <;> rfl

theorem run_put {σ : Type} (files : FileSystem (StateM σ)) (base : Path) (process : Nat)
    (n : Node) (blob : ByteArray) (c : σ) : ((cache files base process).put n blob).run c =
      (((saveBlob files base process n blob).run.run c).1.mapError
          fun e => .storage (.unwritable (blobPath base n).text e),
        ((saveBlob files base process n blob).run.run c).2) := by
  unfold cache
  simp only [StateT.run_bind]
  cases (saveBlob files base process n blob).run.run c with
  | mk result c' => cases result <;> rfl

theorem get_eq {σ : Type} (files : FileSystem (StateM σ)) (base : Path) (process : Nat)
    (n : Node) : (.mk ((cache files base process).get n) : ExceptT Error (StateM σ) _) =
      (loadBlob files base n).adapt fun e => .storage (.unreadable (blobPath base n).text e) :=
  funext (run_get files base process n)

theorem put_eq {σ : Type} (files : FileSystem (StateM σ)) (base : Path) (process : Nat)
    (n : Node) (blob : ByteArray) :
    (.mk ((cache files base process).put n blob) : ExceptT Error (StateM σ) Unit) =
      (saveBlob files base process n blob).adapt
        fun e => .storage (.unwritable (blobPath base n).text e) :=
  funext (run_put files base process n blob)

/-- A save makes the directory, writes the draft and renames it, and removes it if that fails. -/
theorem run_saveBlob {σ : Type} (files : FileSystem (StateM σ)) (base : Path) (process : Nat)
    (n : Node) (blob : ByteArray) (c : σ) :
    (saveBlob files base process n blob).run.run c =
      match (files.makeDirectories (blobPath base n).parent).run.run c with
      | (.error e, c₁) => (.error e, c₁)
      | (.ok (), c₁) =>
        match (files.write (draftPath base process n) (Blob.compress blob)).run.run c₁ with
        | (.error e, c₂) => (.error e, c₂)
        | (.ok (), c₂) =>
          match (files.rename (draftPath base process n) (blobPath base n)).run.run c₂ with
          | (.error e, c₃) => (.error e, ((files.remove (draftPath base process n)).run.run c₃).2)
          | (.ok (), c₃) => (.ok (), c₃) := by
  unfold saveBlob
  dsimp only
  rcases hmake : (files.makeDirectories (blobPath base n).parent).run.run c with ⟨e | ⟨⟩, c₁⟩
  · rw [run_bind_error hmake]
  · rw [run_bind_ok hmake]
    rcases hwrite : (files.write (draftPath base process n) (Blob.compress blob)).run.run c₁ with
      ⟨e | ⟨⟩, c₂⟩
    · rw [run_bind_error hwrite]
      dsimp only
      rw [hwrite]
    · rw [run_bind_ok hwrite, ExceptT.run_tryCatch, StateT.run_bind]
      dsimp only
      rw [hwrite]
      rcases hrename : (files.rename (draftPath base process n) (blobPath base n)).run.run c₂ with
        ⟨e | ⟨⟩, c₃⟩ <;> dsimp only <;> rw [hrename] <;> rfl

/-! ## Names -/

variable {n n' : Node} {process : Nat}

theorem blobPath_eq_child (base : Path) (n : Node) :
    blobPath base n = (base.child (levelName n)).child (fileName n) := rfl

theorem draftPath_eq_child (base : Path) (process : Nat) (n : Node) :
    draftPath base process n = (base.child (levelName n)).child (draftName process n) := rfl

@[simp] theorem parent_blobPath (base : Path) (n : Node) :
    (blobPath base n).parent = base.child (levelName n) := by
  simp [blobPath_eq_child, Path.parent, Path.child]

/-- The names of the file of a blob tell the blob. -/
theorem names_injective (hlevel : levelName n = levelName n') (hfile : fileName n = fileName n') :
    n = n' := by
  apply blobNames_injective
  simp only [blobNames, levelNames, hlevel, hfile]

theorem fileName_ne_draftName (process : Nat) (hlevel : levelName n' = levelName n) :
    fileName n' ≠ draftName process n := by
  intro h
  apply blobNames_ne_draftNames process n n'
  simp only [blobNames, draftNames, levelNames, hlevel, h]

/-! ## Lengths -/

/-- A character takes at most four bytes. -/
theorem utf8ByteSize_le (s : String) : s.utf8ByteSize ≤ 4 * s.toList.length := by
  have hcharacters (cs : List Char) : String.utf8Len cs ≤ 4 * cs.length := by
    induction cs with
    | nil => exact Nat.le_refl 0
    | cons c cs ih =>
      have := c.utf8Size_le_four
      rw [String.utf8Len_cons, List.length_cons]
      omega
  calc s.utf8ByteSize = String.utf8Len s.toList := by
        rw [← String.utf8ByteSize_ofList, String.ofList_toList]
    _ ≤ 4 * s.toList.length := hcharacters _

theorem length_digits_le {k m : Nat} (hk : 0 < k) (h : m < 10 ^ k) : (digits m).length ≤ k := by
  rw [digits_eq]
  exact (Nat.length_toDigits_le_iff (by decide) hk).2 h

theorem length_fileName_le (n : Node) : (fileName n).toList.length ≤ 32 := by
  have hindex := n.index.toNat_lt
  have hdigits : (digits n.index.toNat).length ≤ 20 := length_digits_le (by decide) (by omega)
  rw [toList_fileName]
  simp only [List.length_append, String.length_toList]
  have : "subtree_".length = 8 := rfl
  have : ".rks".length = 4 := rfl
  omega

theorem utf8ByteSize_levelName_le (hlevel : n.level < 2 ^ 32) :
    (levelName n).utf8ByteSize ≤ 255 := by
  have hdigits : (digits n.level).length ≤ 10 := length_digits_le (by decide) (by omega)
  have hsize := utf8ByteSize_le (levelName n)
  rw [toList_levelName, List.length_append, String.length_toList] at hsize
  have : "level_".length = 6 := rfl
  omega

theorem utf8ByteSize_fileName_le (n : Node) : (fileName n).utf8ByteSize ≤ 255 := by
  have hsize := utf8ByteSize_le (fileName n)
  have := length_fileName_le n
  omega

theorem utf8ByteSize_draftName_le (hprocess : process < 2 ^ 32) (n : Node) :
    (draftName process n).utf8ByteSize ≤ 255 := by
  have hdigits : (digits process).length ≤ 10 := length_digits_le (by decide) (by omega)
  have hsize := utf8ByteSize_le (draftName process n)
  have hfile := length_fileName_le n
  rw [toList_draftName] at hsize
  simp only [List.length_append, List.length_cons, String.length_toList] at hsize hfile
  have : ".tmp".length = 4 := rfl
  omega

end ImplicitTiling.DiskCache
