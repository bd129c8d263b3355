import ImplicitTiling.Generator.Run
import ImplicitTiling.Proofs.Files.Laws
import ImplicitTiling.Proofs.Tileset.Uri

/-!
# Where a generator puts its files

Blobs, drafts of blobs and subtrees have names of their own below the directory of the output: no two
blobs share a file (`blobNames_injective`), no two subtrees do (`subtreePath_injective`), and the
three kinds do not meet.
-/

namespace ImplicitTiling

/-- A name is one part of a path, and no step that stays or goes up. -/
theorem Path.isName_iff {name : String} : IsName name ↔
    name ≠ "" ∧ name ≠ "." ∧ name ≠ ".." ∧ '/' ∉ name.toList := by
  unfold IsName Step.ofPart
  by_cases hempty : name = ""
  · simp [hempty]
  · by_cases hdot : name = "."
    · simp [hdot]
    · by_cases hdots : name = ".."
      · simp [hdots]
      · simp [hempty, hdot, hdots]

/-- A long enough text without slashes is a name. -/
theorem Path.isName_of_length {name : String} (hlength : 2 < name.toList.length)
    (hslash : '/' ∉ name.toList) : IsName name := by
  refine isName_iff.2 ⟨?_, ?_, ?_, hslash⟩
  · rintro rfl
    exact absurd hlength (by decide)
  · rintro rfl
    exact absurd hlength (by decide)
  · rintro rfl
    exact absurd hlength (by decide)

theorem Path.parts_append {directory name : List Char} (hdirectory : '/' ∉ directory)
    (hname : '/' ∉ name) :
    Path.parts (.ofList (directory ++ '/' :: name)) = [.ofList directory, .ofList name] := by
  unfold parts
  rw [String.toList_ofList, List.splitOn_append_cons_self_of_not_mem hdirectory,
    List.splitOn_eq_singleton hname]
  rfl

namespace Generator

open Uri

/-! ## Blobs -/

/-- The name of the directory of a blob. -/
def levelName (n : Node) : String :=
  s!"level_{n.level}"

/-- The last name of the file under which a blob is written first. -/
def draftName (process : Nat) (n : Node) : String :=
  s!"{DiskCache.fileName n}.{process}.tmp"

/-- The names of the directory of a blob. -/
def levelNames (n : Node) : List String :=
  ["cache", levelName n]

/-- The names of the file of a blob. -/
def blobNames (n : Node) : List String :=
  levelNames n ++ [DiskCache.fileName n]

/-- The names of the file under which a blob is written first. -/
def draftNames (process : Nat) (n : Node) : List String :=
  levelNames n ++ [draftName process n]

theorem blobPath_eq (output : Path) (n : Node) :
    DiskCache.blobPath (output.child "cache") n = output.under (blobNames n) := by
  simp [DiskCache.blobPath, blobNames, levelNames, levelName, Path.child_eq_under output]

theorem draftPath_eq (output : Path) (process : Nat) (n : Node) :
    DiskCache.draftPath (output.child "cache") process n =
      output.under (draftNames process n) := by
  simp [DiskCache.draftPath, draftNames, draftName, levelNames, levelName,
    Path.child_eq_under output]

theorem toList_levelName (n : Node) :
    (levelName n).toList = "level_".toList ++ digits n.level := by
  simp [levelName, digits, toString]

theorem toList_fileName (n : Node) : (DiskCache.fileName n).toList =
    "subtree_".toList ++ digits n.index.toNat ++ ".rks".toList := by
  simp [DiskCache.fileName, digits, toString]

theorem toList_draftName (process : Nat) (n : Node) :
    (draftName process n).toList =
      (DiskCache.fileName n).toList ++ '.' :: digits process ++ ".tmp".toList := by
  simp [draftName, digits, toString]

theorem slash_not_mem_digits (n : Nat) : '/' ∉ digits n :=
  not_mem_digits rfl n

theorem isName_levelNames (n : Node) : ∀ name ∈ levelNames n, Path.IsName name := by
  have hlevel : Path.IsName (levelName n) := by
    apply Path.isName_of_length <;> rw [toList_levelName]
    · simp
    · simp [slash_not_mem_digits]
  have hcache : Path.IsName "cache" := Path.isName_iff.2 (by decide)
  exact List.forall_mem_cons.2 ⟨hcache, List.forall_mem_singleton.2 hlevel⟩

theorem isName_blobNames (n : Node) : ∀ name ∈ blobNames n, Path.IsName name := by
  have hfile : Path.IsName (DiskCache.fileName n) := by
    apply Path.isName_of_length <;> rw [toList_fileName]
    · simp
    · simp [slash_not_mem_digits]
  exact List.forall_mem_append.2 ⟨isName_levelNames n, List.forall_mem_singleton.2 hfile⟩

theorem isName_draftNames (process : Nat) (n : Node) :
    ∀ name ∈ draftNames process n, Path.IsName name := by
  have hdraft : Path.IsName (draftName process n) := by
    apply Path.isName_of_length <;> rw [toList_draftName, toList_fileName]
    · simp
    · simp [slash_not_mem_digits]
  exact List.forall_mem_append.2 ⟨isName_levelNames n, List.forall_mem_singleton.2 hdraft⟩

/-- No two blobs share a file. -/
theorem blobNames_injective {n n' : Node} (h : blobNames n = blobNames n') : n = n' := by
  obtain ⟨hlevel, hfile⟩ : levelName n = levelName n' ∧
      DiskCache.fileName n = DiskCache.fileName n' := by
    simpa [blobNames, levelNames] using h
  have hlevel := congrArg String.toList hlevel
  have hfile := congrArg String.toList hfile
  rw [toList_levelName, toList_levelName] at hlevel
  rw [toList_fileName, toList_fileName] at hfile
  obtain ⟨level, index⟩ := n
  obtain ⟨level', index'⟩ := n'
  obtain rfl : level = level' := digits_injective (List.append_cancel_left hlevel)
  obtain rfl : index = index' := UInt64.toNat_inj.1
    (digits_injective (List.append_cancel_left (List.append_cancel_right hfile)))
  rfl

/-- A draft is not the file of a blob: their names end differently. -/
theorem blobNames_ne_draftNames (process : Nat) (n n' : Node) :
    blobNames n' ≠ draftNames process n := by
  intro h
  have hname : DiskCache.fileName n' = draftName process n :=
    List.singleton_inj.1 (List.append_inj_right' h rfl)
  have hname := congrArg String.toList hname
  rw [toList_fileName, toList_draftName] at hname
  have hlength : ".rks".toList.length = ".tmp".toList.length := by decide
  have hend : ".rks".toList = ".tmp".toList := List.append_inj_right' hname hlength
  exact absurd hend (by decide)

/-! ## Subtrees -/

/-- The names of the file of a subtree. -/
def subtreeNames (t : Tile) : List String :=
  ["subtrees", subtreeName t]

theorem slash_not_mem_subtreeCharacters (t : Tile) : '/' ∉ subtreeCharacters t := by
  simp [subtreeCharacters, slash_not_mem_digits]

theorem subtreePath_eq (output : Path) (t : Tile) :
    subtreePath output t = output.under (subtreeNames t) := by
  have hexpand : expand ({} : TilesetOptions).subtreeUri t =
      .ofList ("subtrees".toList ++ '/' :: subtreeCharacters t) := by
    rw [← expand_subtreeUri, String.ofList_toList]
  unfold subtreePath Path.below
  rw [hexpand, Path.parts_append (by decide) (slash_not_mem_subtreeCharacters t),
    String.ofList_toList]
  rfl

theorem parent_subtreePath (output : Path) (t : Tile) :
    (subtreePath output t).parent = output.child "subtrees" := by
  rw [subtreePath_eq]
  exact Path.parent_under_concat output ["subtrees"] (subtreeName t)

theorem isName_subtreeNames (t : Tile) : ∀ name ∈ subtreeNames t, Path.IsName name := by
  have hname : Path.IsName (subtreeName t) := by
    apply Path.isName_of_length <;> rw [subtreeName, String.toList_ofList]
    · simp [subtreeCharacters]
      omega
    · exact slash_not_mem_subtreeCharacters t
  have hdirectory : Path.IsName "subtrees" := Path.isName_iff.2 (by decide)
  exact List.forall_mem_cons.2 ⟨hdirectory, List.forall_mem_singleton.2 hname⟩

theorem subtreeNames_injective {t t' : Tile} (h : subtreeNames t = subtreeNames t') : t = t' := by
  apply subtreeName_injective
  simpa [subtreeNames] using h

/-- No two subtrees share a file. -/
theorem subtreePath_injective {output : Path} {t t' : Tile}
    (h : subtreePath output t = subtreePath output t') : t = t' := by
  rw [subtreePath_eq, subtreePath_eq] at h
  exact subtreeNames_injective (Path.under_injective h)

end Generator

end ImplicitTiling
