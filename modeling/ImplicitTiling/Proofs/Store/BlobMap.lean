import ImplicitTiling.Proofs.Compression.RoundTrip
import ImplicitTiling.Proofs.Files.Tree
import ImplicitTiling.Proofs.Store.BlobFiles
import ImplicitTiling.Proofs.Store.Caches

/-!
# The disk cache is a map

Whatever is saved, loaded, deleted and looked for below a base directory that was missing or empty
before, by any processes one after another: every call is answered as by a map from rank roots to
blobs, and the files below the base directory are those of the blobs in the map (`perform_eq_map`).
The names of files keep the blobs apart, and a draft is gone when the call is over.

`Shelf` says what stands below the base directory once it is there. Before that nothing is found in it
(`Unmade`), and the first save makes it. `Mirrors.perform` is what one call does.
-/

namespace ImplicitTiling

open Generator

namespace FileTree

/-- The directory of a path is missing or empty: it can be made, and then nothing stands in it. -/
def IsVacant (t : FileTree) (p : Path) : Prop :=
  ∃ u, (makeDirectories p).run.run t = (.ok (), u) ∧
    ∀ names, names ≠ [] → u.entry? (t.leadsTo p ++ names) = none

theorem isVacant_child {t : FileTree} {p : Path} {there : List String} {name : String}
    (h : t.follow (t.start p) p.steps = .ok (there, .directory)) (hshort : t.isTooLong name = false)
    (hmissing : ∀ names, t.entry? (there ++ name :: names) = none) : t.IsVacant (p.child name) := by
  refine ⟨t.place (there ++ [name]) .directory, ?_, fun names hnames => ?_⟩
  · show makeAlong (t.start p) false (p.child name).steps t = _
    rw [Path.steps_child, makeAlong_of_follow h, makeAlong_down,
      lookUp_eq_ok_iff.2 ⟨hshort, hmissing []⟩]
    rfl
  · have hthere : t.leadsTo p = there := (follow_names h).symm
    rw [entry?_place (by simp [hmissing]), leadsTo_child, hthere,
      Function.update_of_ne (by simpa using hnames), List.append_assoc]
    exact hmissing names

/-- Names of 255 bytes are not too long. -/
def Roomy (t : FileTree) : Prop :=
  ∀ limit ∈ t.longestName, 255 ≤ limit

theorem Roomy.isTooLong_eq_false {t : FileTree} (h : t.Roomy) {name : String}
    (hname : name.utf8ByteSize ≤ 255) : t.isTooLong name = false := by
  unfold Roomy at h
  unfold isTooLong
  cases hlimit : t.longestName with
  | none => rfl
  | some limit =>
    have := h limit hlimit
    exact decide_eq_false (by omega)

end FileTree

namespace DiskCache

open FileTree

/-! ## Calls -/

/-- A call to the blobs below a base directory, and the process that makes it where that matters.
Calls to the cache are `put` and `get`, and the others go to the files directly. -/
inductive Call where
  | save (process : Nat) (n : Node) (blob : ByteArray)
  | put (process : Nat) (n : Node) (blob : ByteArray)
  | load (n : Node)
  | get (process : Nat) (n : Node)
  | delete (n : Node)
  | has (n : Node)

/-- What a call gives back. -/
inductive Answer where
  | done
  | found (blob : Option ByteArray)
  | has (there : Bool)
  | failed (cause : Error)

/-- The answer for a result. -/
def Answer.of {α : Type} (answer : α → Answer) : Except Error α → Answer
  | .ok a => answer a
  | .error cause => .failed cause

namespace Call

/-- Makes a call in a tree of files. -/
def perform (base : Path) : Call → StateM FileTree Answer
  | .save process n blob => do
    return .of (fun _ => .done) ((← (saveBlob system base process n blob).run).mapError .file)
  | .put process n blob => do
    return .of (fun _ => .done) (← (cache system base process).put n blob)
  | .load n => do
    return .of .found ((← (loadBlob system base n).run).mapError .file)
  | .get process n => do
    return .of .found (← (cache system base process).get n)
  | .delete n => do
    return .of (fun _ => .done) ((← (deleteBlob system base n).run).mapError .file)
  | .has n => do
    return .has (← blobExists system base n)

/-- What a map answers. -/
def answer (blobs : Blobs) : Call → Answer
  | .save _ _ _ => .done
  | .put _ _ _ => .done
  | .load n => .found (blobs n)
  | .get _ n => .found (blobs n)
  | .delete _ => .done
  | .has n => .has (blobs n).isSome

/-- What a map holds after a call. -/
def leaves (blobs : Blobs) : Call → Blobs
  | .save _ n blob => Function.update blobs n (some blob)
  | .put _ n blob => Function.update blobs n (some blob)
  | .delete n => Function.update blobs n none
  | .load _ => blobs
  | .get _ _ => blobs
  | .has _ => blobs

/-- Levels and processes are numbers of 32 bits, and blobs have fewer than 2^32 bytes. -/
def Fits : Call → Prop
  | .save process n blob => process < 2 ^ 32 ∧ n.level < 2 ^ 32 ∧ blob.size < 2 ^ 32
  | .put process n blob => process < 2 ^ 32 ∧ n.level < 2 ^ 32 ∧ blob.size < 2 ^ 32
  | .load n => n.level < 2 ^ 32
  | .get _ n => n.level < 2 ^ 32
  | .delete n => n.level < 2 ^ 32
  | .has n => n.level < 2 ^ 32

instance : DecidablePred Fits
  | .save _ _ _ => inferInstanceAs (Decidable (_ ∧ _ ∧ _))
  | .put _ _ _ => inferInstanceAs (Decidable (_ ∧ _ ∧ _))
  | .load _ => inferInstanceAs (Decidable (_ < _))
  | .get _ _ => inferInstanceAs (Decidable (_ < _))
  | .delete _ => inferInstanceAs (Decidable (_ < _))
  | .has _ => inferInstanceAs (Decidable (_ < _))

end Call

/-- What a map holds after some calls: under each rank root the blob that was saved last, unless it
was deleted since. -/
def held (calls : List Call) : Blobs :=
  calls.foldl Call.leaves fun _ => none

/-- The files after some calls. -/
def treeAfter (base : Path) (t : FileTree) (calls : List Call) : FileTree :=
  calls.foldl (fun t c => ((c.perform base).run t).2) t

/-! ## The base directory -/

variable {t u : FileTree} {base : Path} {top : List String} {blobs : Blobs} {n : Node}
  {process : Nat} {c : Call}

/-- The base directory is there, and below it stand the files of the blobs, their directories and
nothing else. -/
structure Shelf (t : FileTree) (base : Path) (top : List String) (blobs : Blobs) : Prop where
  opened : t.follow (t.start base) base.steps = .ok (top, .directory)
  held : ∀ n blob, blobs n = some blob → t.entry? (top ++ [levelName n]) = some .directory ∧
    t.entry? (top ++ [levelName n, fileName n]) = some (.file (Blob.compress blob))
  only : ∀ names e, names ≠ [] → t.entry? (top ++ names) = some e →
    (∃ n, names = [levelName n] ∧ e = .directory) ∨
      ∃ n blob, blobs n = some blob ∧ names = [levelName n, fileName n] ∧
        e = .file (Blob.compress blob)

theorem find_blobPath_eq (t : FileTree) (base : Path) (n : Node) : t.find (blobPath base n) =
    t.follow (t.start base) (base.steps ++ [.down (levelName n), .down (fileName n)]) := by
  rw [blobPath_eq_child, find, if_neg (Path.child_ne_ofText _ _ _), start_child, start_child,
    Path.steps_child, Path.steps_child, List.append_assoc]
  rfl

theorem run_loadBlob_system (t : FileTree) (base : Path) (n : Node) :
    (loadBlob system base n).run.run t =
      (found ((t.findFile (blobPath base n)).map (·.2)), t) :=
  run_loadBlob system base n t

namespace Shelf

theorem entry_level (h : Shelf t base top blobs) (n : Node) :
    t.entry? (top ++ [levelName n]) = none ∨ t.entry? (top ++ [levelName n]) = some .directory := by
  cases he : t.entry? (top ++ [levelName n]) with
  | none => exact .inl rfl
  | some e =>
    obtain ⟨_, -, rfl⟩ | ⟨_, _, -, hnames, -⟩ := h.only _ e (by simp) he
    · exact .inr rfl
    · simp at hnames

theorem entry_blob (h : Shelf t base top blobs) (n : Node) :
    t.entry? (top ++ [levelName n, fileName n]) =
      (blobs n).map fun blob => .file (Blob.compress blob) := by
  cases hblob : blobs n with
  | some blob => exact (h.held n blob hblob).2
  | none =>
    cases he : t.entry? (top ++ [levelName n, fileName n]) with
    | none => rfl
    | some e =>
      obtain ⟨_, hnames, -⟩ | ⟨n', blob, hblob', hnames, -⟩ := h.only _ e (by simp) he
      · simp at hnames
      · obtain ⟨hlevel, hfile, -⟩ : levelName n = levelName n' ∧ fileName n = fileName n' ∧ True := by
          simpa using hnames
        rw [← names_injective hlevel hfile, hblob] at hblob'
        cases hblob'

theorem entry_draft (h : Shelf t base top blobs) (process : Nat) (n : Node) :
    t.entry? (top ++ [levelName n, draftName process n]) = none := by
  cases he : t.entry? (top ++ [levelName n, draftName process n]) with
  | none => rfl
  | some e =>
    obtain ⟨_, hnames, -⟩ | ⟨n', _, -, hnames, -⟩ := h.only _ e (by simp) he
    · simp at hnames
    · obtain ⟨hlevel, hfile, -⟩ :
          levelName n = levelName n' ∧ draftName process n = fileName n' ∧ True := by
        simpa using hnames
      exact absurd hfile.symm (fileName_ne_draftName process hlevel.symm)

theorem opened_level (h : Shelf t base top blobs) (hroomy : t.Roomy) (hn : n.level < 2 ^ 32)
    (hlevel : t.entry? (top ++ [levelName n]) = some .directory) :
    t.follow (t.start (base.child (levelName n))) (base.child (levelName n)).steps =
      .ok (top ++ [levelName n], .directory) := by
  rw [Path.steps_child, start_child, follow_append h.opened, follow_down_eq_directory_iff,
    lookUp_eq_ok_iff]
  exact ⟨⟨hroomy.isTooLong_eq_false (utf8ByteSize_levelName_le hn), hlevel⟩, rfl⟩

theorem update (h : Shelf t base top blobs)
    (hlevel : t.entry? (top ++ [levelName n]) = some .directory) (blob : Option ByteArray)
    (hentry : u.entry? = Function.update t.entry? (top ++ [levelName n, fileName n])
      (blob.map fun blob => .file (Blob.compress blob))) (hhome : u.home = t.home)
    (hlongest : u.longestName = t.longestName) :
    Shelf u base top (Function.update blobs n blob) where
  opened := by
    have hfile : t.entry? (top ++ [levelName n, fileName n]) ≠ some .directory := by
      rw [h.entry_blob n]
      cases blobs n <;> simp
    rw [start_eq_of_home hhome]
    exact (keeps_of_update hfile hentry hhome hlongest).follow h.opened
  held n' blob' hblob' := by
    rw [hentry]
    by_cases hn : n' = n
    · subst hn
      rw [Function.update_self] at hblob'
      rw [Function.update_of_ne (by simp), Function.update_self, hblob']
      exact ⟨hlevel, rfl⟩
    · rw [Function.update_of_ne hn] at hblob'
      have hne : top ++ [levelName n', fileName n'] ≠ top ++ [levelName n, fileName n] := by
        simpa using fun hlevel hfile => hn (names_injective hlevel hfile)
      rw [Function.update_of_ne (by simp), Function.update_of_ne hne]
      exact h.held n' blob' hblob'
  only names e hnames he := by
    rw [hentry] at he
    by_cases hfile : names = [levelName n, fileName n]
    · subst hfile
      rw [Function.update_self] at he
      obtain ⟨blob', hblob', rfl⟩ := Option.map_eq_some_iff.1 he
      exact .inr ⟨n, blob', by rw [Function.update_self, hblob'], rfl, rfl⟩
    · rw [Function.update_of_ne (by simpa using hfile)] at he
      refine (h.only names e hnames he).imp_right ?_
      rintro ⟨n', blob', hblob', rfl, rfl⟩
      have hn : n' ≠ n := by
        rintro rfl
        exact hfile rfl
      exact ⟨n', blob', by rw [Function.update_of_ne hn, hblob'], rfl, rfl⟩

theorem exists_makeAlong (h : Shelf t base top blobs) (hroomy : t.Roomy) (hn : n.level < 2 ^ 32)
    (made : Bool) : ∃ u, makeAlong top made [.down (levelName n)] t = (.ok (), u) ∧ u.Roomy ∧
      Shelf u base top blobs ∧ u.entry? (top ++ [levelName n]) = some .directory := by
  have hshort := hroomy.isTooLong_eq_false (utf8ByteSize_levelName_le hn)
  rcases h.entry_level n with hnone | hdirectory
  · refine ⟨t.place (top ++ [levelName n]) .directory, ?_, hroomy, ?_, ?_⟩
    · rw [makeAlong_down, lookUp_eq_ok_iff.2 ⟨hshort, hnone⟩]
      rfl
    · have hentry := entry?_place (by rw [hnone]; simp) .directory
      refine ⟨(grows_place hnone).keeps.follow h.opened, fun n' blob hblob => ?_, ?_⟩
      · obtain ⟨hlevel, hfile⟩ := h.held n' blob hblob
        refine ⟨(grows_place hnone).keeps.directory _ hlevel, ?_⟩
        rw [hentry, Function.update_of_ne (by simp), hfile]
      · intro names e hnames he
        by_cases hlevel : names = [levelName n]
        · subst hlevel
          rw [hentry, Function.update_self] at he
          exact .inl ⟨n, rfl, (Option.some.inj he).symm⟩
        · rw [hentry, Function.update_of_ne (by simpa using hlevel)] at he
          exact h.only names e hnames he
    · rw [entry?_place (by rw [hnone]; simp), Function.update_self]
  · refine ⟨t, ?_, hroomy, h, hdirectory⟩
    rw [makeAlong_down, lookUp_eq_ok_iff.2 ⟨hshort, hdirectory⟩]
    rfl

end Shelf

/-- The base directory is not there, and can be made. -/
structure Unmade (t : FileTree) (base : Path) (top : List String) : Prop where
  empty : ∀ names, names ≠ [] → t.entry? (top ++ names) = none
  missing : ∀ rest, t.follow (t.start base) (base.steps ++ rest) = .error .notFound
  makes : ∃ u, (makeDirectories base).run.run t = (.ok (), u) ∧ Shelf u base top fun _ => none

/-- The files below the base directory are those of the blobs in a map. -/
structure Mirrors (t : FileTree) (base : Path) (top : List String) (blobs : Blobs) : Prop where
  roomy : t.Roomy
  size_lt : blobs.All fun _ blob => blob.size < 2 ^ 32
  shelved : Shelf t base top blobs ∨ Unmade t base top ∧ blobs = fun _ => none

theorem mirrors_of_isVacant (hvacant : t.IsVacant base) (hroomy : t.Roomy) :
    Mirrors t base (t.leadsTo base) fun _ => none := by
  refine ⟨hroomy, nofun, ?_⟩
  obtain ⟨u, hmake, hempty⟩ := hvacant
  have hgrows := (madeAlong_of_makeDirectories hmake).toGrows
  have hshelf : Shelf u base (t.leadsTo base) fun _ => none := by
    refine ⟨follow_of_makeDirectories hmake, nofun, fun names e hnames he => ?_⟩
    rw [hempty names hnames] at he
    cases he
  rcases follow_before_makeAlong hmake with ⟨rfl, -⟩ | hmissing
  · exact .inl hshelf
  · refine .inr ⟨⟨fun names hnames => ?_, hmissing, u, hmake, hshelf⟩, rfl⟩
    rcases hgrows.entry (t.leadsTo base ++ names) with heq | ⟨hnone, -⟩
    · exact heq.symm.trans (hempty names hnames)
    · exact hnone

namespace Mirrors

/-! ## What a call does -/

theorem find_blobPath (h : Mirrors t base top blobs) (hn : n.level < 2 ^ 32) :
    t.find (blobPath base n) =
      match blobs n with
      | none => .error .notFound
      | some blob => .ok (top ++ [levelName n, fileName n], .file (Blob.compress blob)) := by
  rcases h.shelved with hshelf | ⟨hunmade, rfl⟩
  · rcases hshelf.entry_level n with hnone | hdirectory
    · have hblob : blobs n = none := by
        by_contra hblob
        obtain ⟨blob, hblob⟩ := Option.ne_none_iff_exists'.1 hblob
        rw [(hshelf.held n blob hblob).1] at hnone
        cases hnone
      have hshort := h.roomy.isTooLong_eq_false (utf8ByteSize_levelName_le hn)
      rw [hblob, find_blobPath_eq, follow_append hshelf.opened, follow,
        lookUp_eq_ok_iff.2 ⟨hshort, hnone⟩]
    · have hfile := hshelf.entry_blob n
      have hshort := h.roomy.isTooLong_eq_false (utf8ByteSize_fileName_le n)
      rw [List.append_cons] at hfile
      rw [blobPath_eq_child, find_child (hshelf.opened_level h.roomy hn hdirectory),
        lookUp_eq_ok_iff.2 ⟨hshort, hfile⟩]
      cases blobs n <;> simp
  · rw [find_blobPath_eq]
    exact hunmade.missing _

/-- A blob is loaded as it was saved. -/
theorem run_loadBlob_eq (h : Mirrors t base top blobs) (hn : n.level < 2 ^ 32) :
    (loadBlob system base n).run.run t = (.ok (blobs n), t) := by
  rw [run_loadBlob_system, findFile, h.find_blobPath hn]
  cases hblob : blobs n with
  | none => rfl
  | some blob =>
    show (found (.ok (Blob.compress blob)), t) = _
    rw [found, Blob.decompress_compress (h.size_lt n blob hblob)]
    rfl

theorem run_blobExists_eq (h : Mirrors t base top blobs) (hn : n.level < 2 ^ 32) :
    (blobExists system base n).run t = ((blobs n).isSome, t) := by
  show ((t.find (blobPath base n)).isOk, t) = _
  rw [h.find_blobPath hn]
  cases blobs n <;> rfl

theorem exists_run_deleteBlob (h : Mirrors t base top blobs) (hn : n.level < 2 ^ 32) :
    ∃ u, (deleteBlob system base n).run.run t = (.ok (), u) ∧
      Mirrors u base top (Function.update blobs n none) := by
  have hfind := h.find_blobPath hn
  cases hblob : blobs n with
  | none =>
    rw [hblob] at hfind
    have hremove : (system.remove (blobPath base n)).run.run t = (.error .notFound, t) := by
      rw [run_remove, findFile, hfind]
    refine ⟨t, ?_, ?_⟩
    · rw [deleteBlob, ExceptT.run_tryCatch, StateT.run_bind, hremove]
      rfl
    · rw [← hblob, Function.update_eq_self]
      exact h
  | some blob =>
    rw [hblob] at hfind
    have hremove : (system.remove (blobPath base n)).run.run t =
        (.ok (), t.takeOut (top ++ [levelName n, fileName n])) := by
      rw [run_remove, findFile, hfind]
    refine ⟨t.takeOut (top ++ [levelName n, fileName n]), ?_, h.roomy, ?_, ?_⟩
    · rw [deleteBlob, ExceptT.run_tryCatch, StateT.run_bind, hremove]
      rfl
    · exact (blobs.forgets_erase n).all h.size_lt
    · rcases h.shelved with hshelf | ⟨-, rfl⟩
      · obtain ⟨hlevel, hfile⟩ := hshelf.held n blob hblob
        have hentry := entry?_takeOut (by rw [hfile]; simp)
        exact .inl (hshelf.update hlevel none hentry rfl rfl)
      · cases hblob

/-- Before a blob is written, its directory is made, and the base directory with it. -/
theorem exists_run_makeDirectories (h : Mirrors t base top blobs) (hn : n.level < 2 ^ 32) :
    ∃ u, (system.makeDirectories (base.child (levelName n))).run.run t = (.ok (), u) ∧ u.Roomy ∧
      Shelf u base top blobs ∧ u.entry? (top ++ [levelName n]) = some .directory := by
  have hrun : (system.makeDirectories (base.child (levelName n))).run.run t =
      makeAlong (t.start base) false (base.steps ++ [.down (levelName n)]) t := by
    rw [← Path.steps_child]
    rfl
  rcases h.shelved with hshelf | ⟨⟨-, -, v, hmake, hshelf⟩, rfl⟩
  · rw [hrun, makeAlong_of_follow hshelf.opened]
    exact hshelf.exists_makeAlong h.roomy hn false
  · have hgrows := (madeAlong_of_makeDirectories hmake).toGrows
    have hroomy : v.Roomy := by
      unfold Roomy
      rw [hgrows.longestName]
      exact h.roomy
    have htop : base.steps.foldl Step.go (t.start base) = top := by
      rw [← start_eq_of_home hgrows.home]
      exact (follow_names hshelf.opened).symm
    obtain ⟨made, happend⟩ := makeAlong_append hmake [.down (levelName n)]
    rw [hrun, happend, htop]
    exact hshelf.exists_makeAlong hroomy hn made

/-- A save succeeds, and nothing else changes in the map. -/
theorem exists_run_saveBlob (h : Mirrors t base top blobs) (hprocess : process < 2 ^ 32)
    (hn : n.level < 2 ^ 32) {blob : ByteArray} (hsize : blob.size < 2 ^ 32) :
    ∃ u, (saveBlob system base process n blob).run.run t = (.ok (), u) ∧
      Mirrors u base top (Function.update blobs n (some blob)) := by
  obtain ⟨v, hmake, hroomy, hshelf, hlevel⟩ := h.exists_run_makeDirectories hn
  have hopened := hshelf.opened_level hroomy hn hlevel
  have hdraft := hshelf.entry_draft process n
  have hfile := hshelf.entry_blob n
  have hshort := hroomy.isTooLong_eq_false (utf8ByteSize_draftName_le hprocess n)
  have hshort' := hroomy.isTooLong_eq_false (utf8ByteSize_fileName_le n)
  have hnames : top ++ [levelName n] ++ [fileName n] ≠
      top ++ [levelName n] ++ [draftName process n] := by
    simpa using fileName_ne_draftName process rfl
  rw [List.append_cons] at hdraft hfile
  -- The draft is new in the directory, and it is put in the place of the blob.
  have hfree : v.entry? (top ++ [levelName n] ++ [draftName process n]) ≠ some .directory := by
    rw [hdraft]
    simp
  have hwritten := entry?_place hfree (.file (Blob.compress blob))
  have hopened' := (keeps_of_update hfree hwritten rfl rfl).follow hopened
  have hentry : FileTree.entry? (v.place (top ++ [levelName n] ++ [draftName process n])
      (.file (Blob.compress blob))) (top ++ [levelName n] ++ [fileName n]) =
        v.entry? (top ++ [levelName n] ++ [fileName n]) := by
    rw [hwritten, Function.update_of_ne hnames]
  have hplace : v.entry? (top ++ [levelName n] ++ [fileName n]) ≠ some .directory := by
    rw [hfile]
    cases blobs n <;> simp
  rw [run_saveBlob, parent_blobPath, hmake, draftPath_eq_child, blobPath_eq_child]
  dsimp only
  rw [run_write_child hopened hshort hfree]
  dsimp only
  rw [run_rename_child hopened' hshort (by rw [hwritten, Function.update_self]) hshort'
    (by rw [hentry]; exact hplace)]
  refine ⟨_, rfl, hroomy, h.size_lt.update hsize, .inl ?_⟩
  · refine hshelf.update hlevel (some blob) ?_ rfl rfl
    rw [List.append_cons top (levelName n) [fileName n]]
    exact entry?_moved hdraft hplace (Blob.compress blob)

/-- A call is answered as by the map, and leaves what the map holds then. -/
theorem perform (h : Mirrors t base top blobs) (hc : c.Fits) :
    ((c.perform base).run t).1 = c.answer blobs ∧
      Mirrors ((c.perform base).run t).2 base top (c.leaves blobs) := by
  cases c with
  | save process n blob =>
    obtain ⟨hprocess, hn, hsize⟩ := hc
    obtain ⟨u, hrun, hu⟩ := h.exists_run_saveBlob hprocess hn hsize
    simp only [Call.perform, StateT.run_bind]
    rw [hrun]
    exact ⟨rfl, hu⟩
  | put process n blob =>
    obtain ⟨hprocess, hn, hsize⟩ := hc
    obtain ⟨u, hrun, hu⟩ := h.exists_run_saveBlob hprocess hn hsize
    have hput : ((cache system base process).put n blob).run t = (.ok (), u) := by
      rw [run_put, hrun]
      rfl
    simp only [Call.perform, StateT.run_bind]
    rw [hput]
    exact ⟨rfl, hu⟩
  | load n =>
    simp only [Call.perform, StateT.run_bind]
    rw [h.run_loadBlob_eq hc]
    exact ⟨rfl, h⟩
  | get process n =>
    have hget : ((cache system base process).get n).run t = (.ok (blobs n), t) := by
      rw [run_get, h.run_loadBlob_eq hc]
      rfl
    simp only [Call.perform, StateT.run_bind]
    rw [hget]
    exact ⟨rfl, h⟩
  | delete n =>
    obtain ⟨u, hrun, hu⟩ := h.exists_run_deleteBlob hc
    simp only [Call.perform, StateT.run_bind]
    rw [hrun]
    exact ⟨rfl, hu⟩
  | has n =>
    simp only [Call.perform, StateT.run_bind]
    rw [h.run_blobExists_eq hc]
    exact ⟨rfl, h⟩

/-- After any calls the files are those of the blobs that were saved last. -/
theorem treeAfter (h : Mirrors t base top blobs) {calls : List Call} (hcalls : ∀ c ∈ calls, c.Fits) :
    Mirrors (treeAfter base t calls) base top (calls.foldl Call.leaves blobs) := by
  induction calls generalizing t blobs with
  | nil => exact h
  | cons c calls ih =>
    obtain ⟨hc, hcalls⟩ := List.forall_mem_cons.1 hcalls
    exact ih (h.perform hc).2 hcalls

theorem entry_eq_file_iff (h : Mirrors t base top blobs) {names : List String} (hnames : names ≠ [])
    {bytes : ByteArray} : t.entry? (top ++ names) = some (.file bytes) ↔
      ∃ n blob, blobs n = some blob ∧ names = [levelName n, fileName n] ∧
        bytes = Blob.compress blob := by
  rcases h.shelved with hshelf | ⟨hunmade, rfl⟩
  · constructor
    · intro hentry
      obtain ⟨n, -, hdirectory⟩ | ⟨n, blob, hblob, rfl, hfile⟩ := hshelf.only names _ hnames hentry
      · cases hdirectory
      · cases hfile
        exact ⟨n, blob, hblob, rfl, rfl⟩
    · rintro ⟨n, blob, hblob, rfl, rfl⟩
      exact (hshelf.held n blob hblob).2
  · rw [hunmade.empty names hnames]
    simp

end Mirrors

/-- **The disk cache is a map.** Below a base directory that was missing or empty before and is
touched by nothing else, every call after any others is answered as by a map, and the files that
stand there are one for each blob in the map, named for its rank root. -/
theorem perform_eq_map (hvacant : t.IsVacant base) (hroomy : t.Roomy) {calls : List Call}
    (hcalls : ∀ c ∈ calls, c.Fits) :
    (∀ c : Call, c.Fits →
      ((c.perform base).run (treeAfter base t calls)).1 = c.answer (held calls)) ∧
    ∀ names bytes, names ≠ [] →
      (FileTree.entry? (treeAfter base t calls) (t.leadsTo base ++ names) = some (.file bytes) ↔
        ∃ n blob, held calls n = some blob ∧
          names = [s!"level_{n.level}", s!"subtree_{n.index}.rks"] ∧
          bytes = Blob.compress blob) := by
  have h := (mirrors_of_isVacant hvacant hroomy).treeAfter hcalls
  exact ⟨fun c hc => (h.perform hc).1, fun _ _ hnames => h.entry_eq_file_iff hnames⟩

theorem isVacant_out : IsVacant {} ((Path.ofText ".").child "out") := by
  have hstart : start {} (.ofText ".") = [] := ite_self _
  have hsteps : (Path.ofText ".").steps = [.stay] := by decide
  exact isVacant_child (by rw [hstart, hsteps]; rfl) rfl fun names => by simp [ entry?]

/-- Two processes save a blob, and one of them another one that is deleted again. -/
theorem perform_eq_map_two_processes :
    IsVacant {} ((Path.ofText ".").child "out") ∧ Roomy {} ∧
      (∀ c ∈ [Call.save 1 ⟨0, 0⟩ ⟨#[1]⟩, .put 1 ⟨1, 3⟩ ⟨#[2]⟩, .put 2 ⟨0, 0⟩ ⟨#[3]⟩,
        .delete ⟨1, 3⟩], c.Fits) ∧ (Call.get 1 ⟨0, 0⟩).Fits ∧ ["level_0", "subtree_0.rks"] ≠ [] ∧
      (((Call.get 1 ⟨0, 0⟩).perform ((Path.ofText ".").child "out")).run
        (treeAfter ((Path.ofText ".").child "out") {} [.save 1 ⟨0, 0⟩ ⟨#[1]⟩,
          .put 1 ⟨1, 3⟩ ⟨#[2]⟩, .put 2 ⟨0, 0⟩ ⟨#[3]⟩, .delete ⟨1, 3⟩])).1 =
        .found (some ⟨#[3]⟩) ∧
      FileTree.entry? (treeAfter ((Path.ofText ".").child "out") {} [.save 1 ⟨0, 0⟩ ⟨#[1]⟩,
        .put 1 ⟨1, 3⟩ ⟨#[2]⟩, .put 2 ⟨0, 0⟩ ⟨#[3]⟩, .delete ⟨1, 3⟩])
          ["out", "level_0", "subtree_0.rks"] = some (.file (Blob.compress ⟨#[3]⟩)) := by
  have hfits : ∀ c ∈ [Call.save 1 ⟨0, 0⟩ ⟨#[1]⟩, .put 1 ⟨1, 3⟩ ⟨#[2]⟩, .put 2 ⟨0, 0⟩ ⟨#[3]⟩,
      .delete ⟨1, 3⟩], c.Fits := by
    decide
  obtain ⟨hanswers, hfiles⟩ := perform_eq_map isVacant_out nofun hfits
  have htop : leadsTo {} ((Path.ofText ".").child "out") = ["out"] := by
    have hsteps : (Path.ofText ".").steps = [.stay] := by decide
    have hstart : start {} (.ofText ".") = [] := ite_self _
    rw [leadsTo_child, leadsTo, hstart, hsteps]
    rfl
  have hfile := (hfiles ["level_0", "subtree_0.rks"] _ (by decide)).2
    ⟨⟨0, 0⟩, ⟨#[3]⟩, by decide, by decide, rfl⟩
  rw [htop] at hfile
  exact ⟨isVacant_out, nofun, hfits, by decide, by decide, hanswers (.get 1 ⟨0, 0⟩) (by decide),
    hfile⟩

end DiskCache

end ImplicitTiling
