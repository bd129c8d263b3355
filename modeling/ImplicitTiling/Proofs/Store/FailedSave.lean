import ImplicitTiling.Proofs.Files.Faults
import ImplicitTiling.Proofs.Store.BlobMap

/-!
# Saves that fail

A save can fail at every one of its file operations, and each leaves something else over
(`SaveFails`). Nothing of that is seen by a load: the directories that were made lead no further than
to the directory of the blob, and a draft is no blob's file (`saveBlob_error`). That needs a base path
that goes down behind the first directory that is missing (`LeadsDown`): a step up from there, or a
name that is too long, is not reached before the save and is reached after it
(`not_forall_loadsAsBefore`).
-/

namespace ImplicitTiling

/-- Among the file operations is one that renames, and it failed. -/
def Recorded.RenameFailed {σ : Type} (m : Recorded σ) : Prop :=
  ∃ source target cause, Deed.rename source target (.error cause) ∈ m.deeds

/-- Behind the first directory that is missing on its way, the path has no step up and no name that
is too long. -/
def FileTree.LeadsDown (t : FileTree) (p : Path) : Prop :=
  ∀ front name rest there, p.steps = front ++ .down name :: rest →
    t.follow (t.start p) front = .ok (there, .directory) → t.lookUp there name = .ok none →
    ∀ step ∈ rest, t.Lowers step

namespace DiskCache

open FileTree Generator Recorded

/-! ## How a save fails -/

/-- A save fails when it makes the directory, writes the draft or renames it. -/
inductive SaveFails {σ : Type} (files : FileSystem (StateM σ)) (base : Path) (process : Nat)
    (n : Node) (blob : ByteArray) (c : σ) (e : FileError) (m : Recorded σ) : Prop where
  | making
      (hmake : (files.makeDirectories (base.child (levelName n))).run.run c = (.error e, m.state))
      (hdeeds : ¬ m.RenameFailed)
  | writing {c₁ : σ}
      (hmake : (files.makeDirectories (base.child (levelName n))).run.run c = (.ok (), c₁))
      (hwrite : (files.write (draftPath base process n) (Blob.compress blob)).run.run c₁ =
        (.error e, m.state))
      (hdeeds : ¬ m.RenameFailed)
  | moving {c₁ c₂ c₃ : σ} {result : Except FileError Unit}
      (hmake : (files.makeDirectories (base.child (levelName n))).run.run c = (.ok (), c₁))
      (hwrite : (files.write (draftPath base process n) (Blob.compress blob)).run.run c₁ =
        (.ok (), c₂))
      (hrename : (files.rename (draftPath base process n) (blobPath base n)).run.run c₂ =
        (.error e, c₃))
      (hremove : (files.remove (draftPath base process n)).run.run c₃ = (result, m.state))

theorem saveFails {σ : Type} {files : FileSystem (StateM σ)} {base : Path} {process : Nat} {n : Node}
    {blob : ByteArray} {c : σ} {e : FileError} {m : Recorded σ}
    (h : (saveBlob files.recorded base process n blob).run.run ⟨c, []⟩ = (.error e, m)) :
    SaveFails files base process n blob c e m := by
  rw [run_saveBlob, parent_blobPath] at h
  simp only [FileSystem.recorded, run_recording] at h
  rcases hmake : (files.makeDirectories (base.child (levelName n))).run.run c with ⟨e | ⟨⟩, c₁⟩
  · simp only [hmake] at h
    cases h
    exact .making hmake (by simp [RenameFailed])
  simp only [hmake] at h
  rcases hwrite : (files.write (draftPath base process n) (Blob.compress blob)).run.run c₁ with
    ⟨e | ⟨⟩, c₂⟩
  · simp only [hwrite] at h
    cases h
    exact .writing hmake hwrite (by simp [RenameFailed])
  simp only [hwrite] at h
  rcases hrename : (files.rename (draftPath base process n) (blobPath base n)).run.run c₂ with
    ⟨e | ⟨⟩, c₃⟩
  · simp only [hrename] at h
    cases h
    exact .moving hmake hwrite hrename rfl
  · simp only [hrename] at h
    cases h

/-! ## What it leaves over -/

variable {faults : Faults} {t u : FileTree} {base : Path} {process : Nat} {n n' : Node}
  {blob : ByteArray} {e : FileError} {m : Recorded FileTree} {front rest : List Step}
  {there : List String}

theorem SaveFails.residue (h : SaveFails (failing faults) base process n blob t e m)
    (hbase : base.steps = front ++ rest)
    (hfront : t.follow (t.start base) front = .ok (there, .directory)) :
    Residue there (rest ++ [.down (levelName n)]) (t.leadsTo (draftPath base process n)) t
      m.state := by
  have hmade {result : Except FileError Unit} {v : FileTree}
      (hmake : ((failing faults).makeDirectories (base.child (levelName n))).run.run t =
        (result, v)) : Residue there (rest ++ [.down (levelName n)])
          (t.leadsTo (base.child (levelName n)) ++ [draftName process n]) t v := by
    obtain ⟨k, rfl⟩ := exists_take_of_makeDirectories hmake
    rw [Path.steps_child, hbase, List.append_assoc]
    exact (madeAlong_take hfront false _ k).residue _
  rw [draftPath_eq_child, leadsTo_child]
  cases h with
  | making hmake => exact hmade hmake
  | writing hmake hwrite =>
    exact (hmade hmake).write (follow_of_makeDirectories (makeDirectories_of_failing hmake)) hwrite
  | moving hmake hwrite hrename hremove =>
    have hopened := follow_of_makeDirectories (makeDirectories_of_failing hmake)
    cases eq_of_rename hrename
    exact ((hmade hmake).write hopened hwrite).remove (follow_of_write hopened hwrite) hremove

theorem SaveFails.state_eq {name : String} (h : SaveFails (failing faults) base process n blob t e m)
    (hbase : base.steps = front ++ .down name :: rest)
    (hfront : t.follow (t.start base) front = .ok (there, .directory))
    (hname : t.lookUp there name ≠ .ok (some .directory))
    (hmissing : t.lookUp there name ≠ .ok none) : m.state = t := by
  have hsteps : (base.child (levelName n)).steps =
      front ++ .down name :: (rest ++ [.down (levelName n)]) := by
    rw [Path.steps_child, hbase, List.append_assoc, List.cons_append]
  have hmade {result : Except FileError Unit} {v : FileTree}
      (hmake : ((failing faults).makeDirectories (base.child (levelName n))).run.run t =
        (result, v)) : v = t := by
    obtain ⟨k, rfl⟩ := exists_take_of_makeDirectories hmake
    rw [hsteps]
    exact makeAlong_take_eq hfront hname hmissing false _ k
  -- The directory cannot have been made, so nothing was written or renamed.
  have hclosed {v : FileTree}
      (hmake : ((failing faults).makeDirectories (base.child (levelName n))).run.run t =
        (.ok (), v)) : False := by
    have hopened := follow_of_makeDirectories (makeDirectories_of_failing hmake)
    rw [hmade hmake, hsteps, start_child, follow_append hfront,
      follow_down_eq_directory_iff] at hopened
    exact hname hopened.1
  cases h with
  | making hmake => exact hmade hmake
  | writing hmake => exact (hclosed hmake).elim
  | moving hmake => exact (hclosed hmake).elim

/-- A load does not see what is left over. -/
theorem run_loadBlob_of_residue
    (h : Residue there (rest ++ [.down (levelName n)]) (t.leadsTo (draftPath base process n)) t u)
    (hground : t.Grounded) (hroomy : t.Roomy) (hbase : base.steps = front ++ rest)
    (hfront : t.follow (t.start base) front = .ok (there, .directory))
    (hrest : ∀ step ∈ rest, t.Lowers step) (hn : n.level < 2 ^ 32) (hn' : n'.level < 2 ^ 32) :
    ((loadBlob system base n').run.run u).1 = ((loadBlob system base n').run.run t).1 := by
  have hlevel (n : Node) (hn : n.level < 2 ^ 32) : t.Lowers (.down (levelName n)) :=
    hroomy.isTooLong_eq_false (utf8ByteSize_levelName_le hn)
  have hfile : t.Lowers (.down (fileName n')) :=
    hroomy.isTooLong_eq_false (utf8ByteSize_fileName_le n')
  have hway : ∀ step ∈ rest ++ [.down (levelName n'), .down (fileName n')], t.Lowers step := by
    simpa [or_imp, forall_and] using ⟨hrest, hlevel n' hn', hfile⟩
  have hsteps : ∀ step ∈ rest ++ [.down (levelName n)], t.Lowers step := by
    simpa [or_imp, forall_and] using ⟨hrest, hlevel n hn⟩
  have htop : t.leadsTo base = rest.foldl Step.go there := by
    rw [leadsTo, hbase, List.foldl_append, ← follow_names hfront]
  have hdraft : ¬ t.leadsTo (draftPath base process n) <+:
      (rest ++ [Step.down (levelName n'), .down (fileName n')]).foldl Step.go there := by
    intro hprefix
    have heq := hprefix.eq_of_length (by simp [draftPath_eq_child, htop, Step.go])
    have hnames : levelName n = levelName n' ∧ draftName process n = fileName n' := by
      simpa [draftPath_eq_child, htop, Step.go] using heq
    exact fileName_ne_draftName process hnames.1.symm hnames.2.symm
  have hfollow := h.follow_eq hground hsteps hway hdraft (by simp [Step.go])
  have hfind : u.find (blobPath base n') = t.find (blobPath base n') := by
    rw [find_blobPath_eq, find_blobPath_eq, start_eq_of_home h.home, hbase, List.append_assoc,
      follow_append hfront, follow_append (h.toKeeps.follow hfront), hfollow]
  rw [run_loadBlob_system, run_loadBlob_system, findFile, findFile, hfind]

/-! ## Failed saves -/

/-- **A failed save leaves every blob as it was.** Whatever operation failed, and whatever stood in
the way, every blob is loaded as before, if the base path goes down behind the first directory that
is missing. Where the draft could not be renamed, no file is another one than
before but that of the draft, and that is gone. -/
theorem saveBlob_error
    (h : (∃ e, (saveBlob (failing faults).recorded base process n blob).run.run ⟨t, []⟩ =
        (.error e, m)) ∨
      ∃ e, ((cache (failing faults).recorded base process).put n blob).run ⟨t, []⟩ =
        (.error e, m)) :
    (t.Grounded → t.Roomy → t.LeadsDown base → n.level < 2 ^ 32 → ∀ n', n'.level < 2 ^ 32 →
      ((loadBlob system base n').run.run m.state).1 = ((loadBlob system base n').run.run t).1) ∧
    (m.RenameFailed → ∀ names bytes, m.state.entry? names = some (.file bytes) ↔
      t.entry? names = some (.file bytes) ∧ names ≠ t.leadsTo (draftPath base process n)) := by
  obtain ⟨e, hfails⟩ : ∃ e, SaveFails (failing faults) base process n blob t e m := by
    rcases h with ⟨e, h⟩ | ⟨e, h⟩
    · exact ⟨e, saveFails h⟩
    · rw [run_put] at h
      rcases hsave : (saveBlob (failing faults).recorded base process n blob).run.run ⟨t, []⟩ with
        ⟨e' | ⟨⟩, m'⟩
      · rw [hsave] at h
        cases h
        exact ⟨e', saveFails hsave⟩
      · rw [hsave] at h
        cases h
  constructor
  · intro hground hroomy hdown hn n' hn'
    rcases t.follow_cases (t.start base) base.steps with
      ⟨there, hopened⟩ | ⟨front, name, rest, there, hbase, hfront, hname⟩
    · have hbase : base.steps = base.steps ++ [] := (List.append_nil _).symm
      exact run_loadBlob_of_residue (hfails.residue hbase hopened) hground hroomy hbase hopened
        nofun hn hn'
    · by_cases hmissing : t.lookUp there name = .ok none
      · -- What is made begins with this name, and behind it the base path leads on downwards.
        have hrest : ∀ step ∈ .down name :: rest, t.Lowers step :=
          List.forall_mem_cons.2 ⟨(lookUp_eq_ok_iff.1 hmissing).1,
            hdown front name rest there hbase hfront hmissing⟩
        exact run_loadBlob_of_residue (hfails.residue hbase hfront) hground hroomy hbase hfront
          hrest hn hn'
      · rw [hfails.state_eq hbase hfront hname hmissing]
  · intro hrename
    cases hfails with
    | making _ hdeeds => exact absurd hrename hdeeds
    | writing _ _ hdeeds => exact absurd hrename hdeeds
    | moving hmake hwrite hmove hremove =>
      have hmade := makeDirectories_of_failing hmake
      have hgrows := (madeAlong_of_makeDirectories hmade).toGrows
      cases eq_of_rename hmove
      rw [draftPath_eq_child] at hwrite hremove
      have hentry := entry?_of_write_of_remove (follow_of_makeDirectories hmade) hwrite hremove
      rw [← leadsTo_child, ← draftPath_eq_child] at hentry
      intro names bytes
      rw [hentry]
      by_cases hnames : names = t.leadsTo (draftPath base process n)
      · subst hnames
        simp
      · rw [Function.update_of_ne hnames, hgrows.entry_eq_file_iff]
        simp [hnames]

theorem saveBlob_of_moving {top : List String} {blobs : Blobs} (h : Mirrors t base top blobs)
    (hprocess : process < 2 ^ 32) (hn : n.level < 2 ^ 32) (blob : ByteArray) (e : FileError) :
    ∃ m, (saveBlob (failing { moving := some e }).recorded base process n blob).run.run ⟨t, []⟩ =
      (.error e, m) ∧ m.RenameFailed := by
  obtain ⟨v, hmake, hroomy, hshelf, hlevel⟩ := h.exists_run_makeDirectories hn
  obtain ⟨w, hwrite⟩ : ∃ w, (system.write (draftPath base process n)
      (Blob.compress blob)).run.run v = (.ok (), w) := by
    rw [draftPath_eq_child]
    exact ⟨_, run_write_child (hshelf.opened_level hroomy hn hlevel)
      (hroomy.isTooLong_eq_false (utf8ByteSize_draftName_le hprocess n))
      (by rw [List.append_assoc]; exact fun heq => by simp [hshelf.entry_draft process n] at heq)⟩
  have hmake' : ((failing { moving := some e }).makeDirectories
      (base.child (levelName n))).run.run t = (.ok (), v) := hmake
  have hwrite' : ((failing { moving := some e }).write (draftPath base process n)
      (Blob.compress blob)).run.run v = (.ok (), _) := hwrite
  have hmove (w : FileTree) : ((failing { moving := some e }).rename (draftPath base process n)
      (blobPath base n)).run.run w = (.error e, w) := rfl
  rw [run_saveBlob, parent_blobPath]
  simp only [FileSystem.recorded, run_recording, hmake', hwrite', hmove]
  exact ⟨_, rfl, draftPath base process n, blobPath base n, e, by simp⟩

theorem grounded_of_saveBlob {result : Except FileError Unit} (h : t.Grounded)
    (hsave : (saveBlob (failing faults) base process n blob).run.run t = (result, u)) :
    u.Grounded := by
  rw [run_saveBlob] at hsave
  rcases hmake : ((failing faults).makeDirectories (blobPath base n).parent).run.run t with
    ⟨e | ⟨⟩, c₁⟩
  · simp only [hmake] at hsave
    cases hsave
    exact h.makeDirectories hmake
  simp only [hmake] at hsave
  have h₁ := h.makeDirectories hmake
  rcases hwrite : ((failing faults).write (draftPath base process n)
    (Blob.compress blob)).run.run c₁ with ⟨e | ⟨⟩, c₂⟩
  · simp only [hwrite] at hsave
    cases hsave
    exact h₁.write hwrite
  simp only [hwrite] at hsave
  have h₂ := h₁.write hwrite
  rcases hrename : ((failing faults).rename (draftPath base process n)
    (blobPath base n)).run.run c₂ with ⟨e | ⟨⟩, c₃⟩
  · simp only [hrename] at hsave
    cases hsave
    exact (h₂.rename hrename).remove rfl
  · simp only [hrename] at hsave
    cases hsave
    exact h₂.rename hrename

theorem leadsDown_of_lowers {p : Path} (h : ∀ step ∈ p.steps, t.Lowers step) : t.LeadsDown p := by
  intro front name rest there hsteps _ _ step hstep
  exact h step (by simp [hsteps, hstep])

/-- The draft of a blob cannot be renamed, in a tree that holds another blob. -/
theorem saveBlob_error_beside : ∃ (t : FileTree) (m : Recorded FileTree),
    (saveBlob system ((Path.ofText ".").child "out") 7 ⟨1, 2⟩ ⟨#[2]⟩).run.run {} = (.ok (), t) ∧
    (saveBlob (failing { moving := some (.other "busy") }).recorded ((Path.ofText ".").child "out")
      7 ⟨0, 0⟩ ⟨#[1]⟩).run.run ⟨t, []⟩ = (.error (.other "busy"), m) ∧ m.RenameFailed ∧
    t.Grounded ∧ t.Roomy ∧ t.LeadsDown ((Path.ofText ".").child "out") ∧
    ((loadBlob system ((Path.ofText ".").child "out") ⟨1, 2⟩).run.run t).1 = .ok (some ⟨#[2]⟩) ∧
    ((loadBlob system ((Path.ofText ".").child "out") ⟨1, 2⟩).run.run m.state).1 =
      .ok (some ⟨#[2]⟩) ∧
    ∀ names bytes, m.state.entry? names = some (.file bytes) ↔ t.entry? names = some (.file bytes) ∧
      names ≠ t.leadsTo (draftPath ((Path.ofText ".").child "out") 7 ⟨0, 0⟩) := by
  have hvacant := mirrors_of_isVacant isVacant_out nofun
  obtain ⟨t, hsaved, hmirrors⟩ := hvacant.exists_run_saveBlob (by decide : 7 < 2 ^ 32)
    (by decide : Node.level ⟨1, 2⟩ < 2 ^ 32) (by decide : (⟨#[2]⟩ : ByteArray).size < 2 ^ 32)
  obtain ⟨m, hsave, hrename⟩ := saveBlob_of_moving hmirrors (by decide : 7 < 2 ^ 32)
    (by decide : Node.level ⟨0, 0⟩ < 2 ^ 32) ⟨#[1]⟩ (.other "busy")
  obtain ⟨hloads, hfiles⟩ := saveBlob_error (.inl ⟨_, hsave⟩)
  have hground : t.Grounded := by
    rw [← failing_none] at hsaved
    exact grounded_of_saveBlob grounded_empty hsaved
  have hroomy := hmirrors.roomy
  have hdown : t.LeadsDown ((Path.ofText ".").child "out") := by
    have hsteps : ((Path.ofText ".").child "out").steps = [.stay, .down "out"] := by decide
    have hshort : t.Lowers (.down "out") := hroomy.isTooLong_eq_false (by decide)
    refine leadsDown_of_lowers ?_
    rw [hsteps]
    simpa [Lowers] using hshort
  have hload : ((loadBlob system ((Path.ofText ".").child "out") ⟨1, 2⟩).run.run t).1 =
      .ok (some ⟨#[2]⟩) := by
    rw [hmirrors.run_loadBlob_eq (by decide), Function.update_self]
  exact ⟨t, m, hsaved, hsave, hrename, hground, hroomy, hdown, hload,
    (hloads hground hroomy hdown (by decide) ⟨1, 2⟩ (by decide)).trans hload, hfiles hrename⟩

/-! ## Behind missing directories -/

/-- Every save that fails leaves all blobs to be loaded as before. -/
def LoadsAsBefore (t : FileTree) (base : Path) : Prop :=
  ∀ faults process n blob e m, n.level < 2 ^ 32 →
    (saveBlob (failing faults).recorded base process n blob).run.run ⟨t, []⟩ = (.error e, m) →
    ∀ n', n'.level < 2 ^ 32 →
      ((loadBlob system base n').run.run m.state).1 = ((loadBlob system base n').run.run t).1

theorem saveBlob_of_making {σ : Type} {files : FileSystem (StateM σ)} {c c₁ : σ}
    (hmake : (files.makeDirectories (base.child (levelName n))).run.run c = (.error e, c₁))
    (process : Nat) (blob : ByteArray) :
    (saveBlob files.recorded base process n blob).run.run ⟨c, []⟩ =
      (.error e, ⟨c₁, [.makeDirectories (base.child (levelName n)) (.error e)]⟩) := by
  rw [run_saveBlob, parent_blobPath]
  simp only [FileSystem.recorded, run_recording, hmake]

theorem run_loadBlob_of_follow
    (h : t.follow (t.start base) (base.steps ++ [.down (levelName n), .down (fileName n)]) =
      .error e) : ((loadBlob system base n).run.run t).1 = found (.error e) := by
  rw [run_loadBlob_system, findFile, find_blobPath_eq, h]
  rfl

/-- Where the first name on the way is missing, a save makes it. If the save fails behind it, and a
load that gets there fails too, then the load did not fail before. -/
theorem not_loadsAsBefore {name : String} {cause : FileError}
    (hbase : base.steps = .down name :: rest) (hn : n.level < 2 ^ 32)
    (hmissing : t.lookUp (t.start base) name = .ok none)
    (hu : u = t.place (t.start base ++ [name]) .directory)
    (hmake : makeAlong (t.start base ++ [name]) true (rest ++ [.down (levelName n)]) u =
      (.error e, u))
    (hload : u.follow (t.start base) (base.steps ++ [.down (levelName n), .down (fileName n)]) =
      .error cause) (hcause : cause ≠ .notFound) : ¬ LoadsAsBefore t base := by
  intro hkept
  have hstart : u.start base = t.start base := start_eq_of_home (by rw [hu]; rfl) base
  have hmade : ((failing {}).makeDirectories (base.child (levelName n))).run.run t =
      (.error e, u) := by
    show makeAlong (t.start base) false (base.child (levelName n)).steps t = _
    rw [Path.steps_child, hbase, List.cons_append, makeAlong_down, hmissing, ← hu, hmake]
  have hbefore : t.follow (t.start base)
      (base.steps ++ [.down (levelName n), .down (fileName n)]) = .error .notFound := by
    rw [hbase, List.cons_append, follow, hmissing]
  have heq := hkept {} 0 n default e _ hn (saveBlob_of_making hmade 0 default) n hn
  rw [run_loadBlob_of_follow hbefore, run_loadBlob_of_follow (by rw [hstart, hload]),
    found_eq_error hcause] at heq
  cases heq

theorem not_loadsAsBefore_of_up {gone kept : String} {bytes : ByteArray}
    (hbase : base.steps = [.down gone, .up, .down kept]) (hn : n.level < 2 ^ 32)
    (hgone : t.lookUp (t.start base) gone = .ok none)
    (hkept : t.lookUp (t.start base) kept = .ok (some .directory))
    (hfile : t.lookUp (t.start base ++ [kept]) (levelName n) = .ok (some (.file bytes))) :
    ¬ LoadsAsBefore t base := by
  have hgrows := grows_place (lookUp_eq_ok_iff.1 hgone).2
  have hmake : makeAlong (t.start base ++ [gone]) true [.up, .down kept, .down (levelName n)]
      (t.place (t.start base ++ [gone]) .directory) =
        (.error .alreadyExists, t.place (t.start base ++ [gone]) .directory) := by
    show makeAlong (t.start base ++ [gone]).dropLast true [.down kept, .down (levelName n)] _ = _
    rw [List.dropLast_concat, makeAlong_down, hgrows.lookUp hkept]
    dsimp only
    rw [makeAlong_down, hgrows.lookUp hfile]
    rfl
  have hload : (t.place (t.start base ++ [gone]) .directory).follow (t.start base)
      (base.steps ++ [.down (levelName n), .down (fileName n)]) = .error .notADirectory := by
    rw [hbase, List.cons_append, follow, lookUp_place hgone]
    show follow _ (t.start base ++ [gone]).dropLast
      [.down kept, .down (levelName n), .down (fileName n)] = _
    rw [List.dropLast_concat, follow, hgrows.lookUp hkept]
    dsimp only
    rw [follow, hgrows.lookUp hfile]
    rfl
  exact not_loadsAsBefore hbase hn hgone rfl hmake hload (by decide)

theorem not_loadsAsBefore_of_long {gone long : String}
    (hbase : base.steps = [.down gone, .down long])
    (hgone : t.lookUp (t.start base) gone = .ok none) (hlong : t.isTooLong long = true) :
    ¬ LoadsAsBefore t base := by
  have hlookUp : (t.place (t.start base ++ [gone]) .directory).lookUp (t.start base ++ [gone])
      long = .error .nameTooLong := if_pos hlong
  have hmake : makeAlong (t.start base ++ [gone]) true [.down long, .down (levelName ⟨0, 0⟩)]
      (t.place (t.start base ++ [gone]) .directory) =
        (.error .nameTooLong, t.place (t.start base ++ [gone]) .directory) := by
    rw [makeAlong_down, hlookUp]
  have hload : (t.place (t.start base ++ [gone]) .directory).follow (t.start base)
      (base.steps ++ [.down (levelName ⟨0, 0⟩), .down (fileName ⟨0, 0⟩)]) =
        .error .nameTooLong := by
    rw [hbase, List.cons_append, follow, lookUp_place hgone]
    dsimp only
    rw [List.cons_append, follow, hlookUp]
  exact not_loadsAsBefore hbase (by decide) hgone rfl hmake hload (by decide)

/-- A directory with a file where the directory of a level should be. -/
def blockedTree : FileTree :=
  (place {} ([] ++ ["kept"]) .directory).place (["kept"] ++ ["level_0"]) (.file .empty)

theorem grounded_blockedTree : blockedTree.Grounded :=
  (grounded_empty.place rfl (by simp [ entry?]) _).place (by simp [ entry?, place])
    (by simp [ entry?, place]) _

theorem lookUp_blockedTree : blockedTree.lookUp [] "gone" = .ok none ∧
    blockedTree.lookUp [] "kept" = .ok (some .directory) ∧
    blockedTree.lookUp ["kept"] "level_0" = .ok (some (.file .empty)) := by
  refine ⟨lookUp_eq_ok_iff.2 ⟨rfl, ?_⟩, lookUp_eq_ok_iff.2 ⟨rfl, ?_⟩, lookUp_place ?_ _⟩
  · simp [ entry?, blockedTree, place]
  · simp [ entry?, blockedTree, place, Std.HashMap.getElem_insert]
  · exact lookUp_eq_ok_iff.2 ⟨rfl, by simp [ entry?, place]⟩

theorem exists_lt_utf8ByteSize (limit : Nat) : ∃ name : String, limit < name.utf8ByteSize := by
  have hsize (k : Nat) : String.utf8Len (List.replicate k 'a') = k := by
    induction k with
    | zero => rfl
    | succ k ih =>
      rw [List.replicate_succ, String.utf8Len_cons, ih]
      rfl
  refine ⟨.ofList (List.replicate (limit + 1) 'a'), ?_⟩
  rw [String.utf8ByteSize_ofList, hsize]
  exact Nat.lt_succ_self limit

/-- Neither can be left out: that the base path does not lead up, and that no name on it is too
long. -/
theorem not_forall_loadsAsBefore :
    (¬ ∀ (t : FileTree) (base : Path), t.Grounded → t.Roomy →
      (∀ name, .down name ∈ base.steps → t.isTooLong name = false) → LoadsAsBefore t base) ∧
    ¬ ∀ (t : FileTree) (base : Path), t.Grounded → t.Roomy → .up ∉ base.steps →
      LoadsAsBefore t base := by
  constructor
  · intro hforall
    have hroomy : blockedTree.Roomy := by
      rintro limit ⟨⟩
    have hstart : blockedTree.start (.ofText "gone/../kept") = [] := ite_self _
    have hsteps : (Path.ofText "gone/../kept").steps = [.down "gone", .up, .down "kept"] := by
      decide
    have hlevel : levelName ⟨0, 0⟩ = "level_0" := by decide
    obtain ⟨hgone, hkept, hfile⟩ := lookUp_blockedTree
    rw [← hstart] at hgone hkept
    have hfile' : blockedTree.lookUp (blockedTree.start (.ofText "gone/../kept") ++ ["kept"])
        (levelName ⟨0, 0⟩) = .ok (some (.file .empty)) := by
      rw [hstart, hlevel]
      exact hfile
    exact not_loadsAsBefore_of_up hsteps (by decide) hgone hkept hfile'
      (hforall _ _ grounded_blockedTree hroomy fun _ _ => rfl)
  · intro hforall
    have hground : (⟨{}, [], some 255⟩ : FileTree).Grounded := grounded_empty
    have hroomy : (⟨{}, [], some 255⟩ : FileTree).Roomy := by
      rintro limit ⟨⟩
      exact Nat.le_refl 255
    obtain ⟨long, hlong⟩ := exists_lt_utf8ByteSize 255
    have hgone : (Path.ofText "gone").steps = [.down "gone"] := by decide
    have hsteps : ((Path.ofText "gone").child long).steps = [.down "gone", .down long] := by
      rw [Path.steps_child, hgone]
      rfl
    refine not_loadsAsBefore_of_long hsteps (lookUp_eq_ok_iff.2 ⟨by decide, ?_⟩) ?_
      (hforall _ _ hground hroomy (by simp [hsteps]))
    · simp [ entry?]
    · exact decide_eq_true hlong

end DiskCache

end ImplicitTiling
