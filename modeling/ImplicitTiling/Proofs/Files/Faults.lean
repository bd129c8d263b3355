import ImplicitTiling.Proofs.Files.Tree
import Mathlib.Data.List.Induction

/-!
# File operations that fail

A tree of files in which making directories, writing and moving can fail although nothing stands in
their way (`FileTree.failing`), and what is left of such a change: directories on the way, and one
file (`Residue`). A way down that did not lead through these leads to the same thing as before
(`Residue.follow_eq`), if every entry of the tree stands in a directory (`Grounded`); and so it does
after each of the operations, failed or not.
-/

namespace ImplicitTiling.FileTree

variable {t u v w : FileTree} {p : Path} {here there names target : List String} {name : String}
  {e : FileEntry} {cause : FileError} {steps front rest : List Step} {made : Bool}

/-! ## Grounded trees -/

/-- Every entry stands in a directory. -/
def Grounded (t : FileTree) : Prop :=
  ∀ names name, t.entry? (names ++ [name]) ≠ none → t.entry? names = some .directory

theorem grounded_empty : Grounded {} := by
  intro names name h
  simp [ entry?] at h

/-- Something is put in a directory or taken out of one, and it is not a directory with things in
it. -/
theorem Grounded.update (h : t.Grounded) (hfree : t.entry? (there ++ [name]) ≠ some .directory)
    {found : Option FileEntry}
    (hentry : u.entry? = Function.update t.entry? (there ++ [name]) found)
    (hthere : found = none ∨ t.entry? there = some .directory) : u.Grounded := by
  intro names name' hne
  rw [hentry] at hne ⊢
  by_cases hnew : names ++ [name'] = there ++ [name]
  · obtain ⟨rfl, -⟩ := List.append_inj' hnew rfl
    rw [hnew, Function.update_self] at hne
    rw [Function.update_of_ne (by simp)]
    exact hthere.resolve_left hne
  · rw [Function.update_of_ne hnew] at hne
    have hdirectory := h names name' hne
    have hother : names ≠ there ++ [name] := by
      rintro rfl
      exact hfree hdirectory
    rwa [Function.update_of_ne hother]

theorem Grounded.place (h : t.Grounded) (hthere : t.entry? there = some .directory)
    (hfree : t.entry? (there ++ [name]) ≠ some .directory) (e : FileEntry) :
    (t.place (there ++ [name]) e).Grounded :=
  h.update hfree (entry?_place hfree e) (.inr hthere)

theorem Grounded.entry?_eq_none (h : t.Grounded) (hnames : t.entry? names = none)
    (below : List String) : t.entry? (names ++ below) = none := by
  induction below using List.reverseRecOn with
  | nil => rwa [List.append_nil]
  | append_singleton below name ih =>
    by_contra hentry
    rw [← List.append_assoc] at hentry
    rw [h _ _ hentry] at ih
    cases ih

/-! ## Ways down -/

/-- A step that does not lead up, and to no name that is too long. -/
def Lowers (t : FileTree) : Step → Prop
  | .stay => True
  | .up => False
  | .down name => t.isTooLong name = false

theorem lowers_iff (hlongest : u.longestName = t.longestName) (step : Step) :
    u.Lowers step ↔ t.Lowers step := by
  cases step <;> simp [Lowers, isTooLong, hlongest]

theorem prefix_foldl_go (hsteps : ∀ step ∈ steps, t.Lowers step) (here : List String) :
    here <+: steps.foldl Step.go here := by
  induction steps generalizing here with
  | nil => exact List.prefix_refl here
  | cons step rest ih =>
    obtain ⟨hstep, hrest⟩ := List.forall_mem_cons.1 hsteps
    cases step with
    | stay => exact ih hrest here
    | up => exact absurd hstep id
    | down name => exact (List.prefix_append here [name]).trans (ih hrest _)

theorem isPrefix_foldl_go (hsteps : ∀ step ∈ steps, t.Lowers step) (hfront : front <+: steps)
    (here : List String) : front.foldl Step.go here <+: steps.foldl Step.go here := by
  obtain ⟨rest, rfl⟩ := hfront
  rw [List.foldl_append]
  exact prefix_foldl_go (fun step hstep => hsteps step (List.mem_append_right _ hstep)) _

/-- A way that ends at a missing name ends there still when directories are made on it, unless the
target of the way is made. -/
theorem follow_eq_notFound (hsteps : ∀ step ∈ steps, u.Lowers step)
    (htarget : steps.foldl Step.go here = target) (hne : here ≠ target)
    (hentry : ∀ names, names <+: target → here <+: names → here ≠ names →
      u.entry? names = none ∨ names ≠ target ∧ u.entry? names = some .directory) :
    u.follow here steps = .error .notFound := by
  induction steps generalizing here with
  | nil => exact absurd htarget hne
  | cons step rest ih =>
    obtain ⟨hstep, hrest⟩ := List.forall_mem_cons.1 hsteps
    cases step with
    | stay => exact ih hrest htarget hne hentry
    | up => exact absurd hstep id
    | down name =>
      have hon : here ++ [name] <+: target := htarget ▸ prefix_foldl_go hrest (here ++ [name])
      rw [follow]
      rcases hentry _ hon (List.prefix_append here [name]) (by simp) with hnone | ⟨hother, hdir⟩
      · rw [lookUp_eq_ok_iff.2 ⟨hstep, hnone⟩]
      · rw [lookUp_eq_ok_iff.2 ⟨hstep, hdir⟩]
        refine ih hrest htarget hother fun names hnames hbelow hne' => ?_
        refine hentry names hnames ((List.prefix_append here [name]).trans hbelow) ?_
        rintro rfl
        exact absurd hbelow.length_le (by simp)

/-- A way down leads to the same thing when directories are made on it, unless its target is made. -/
theorem Grounded.follow_eq (h : t.Grounded) (hlongest : u.longestName = t.longestName)
    (hsteps : ∀ step ∈ steps, t.Lowers step) (htarget : steps.foldl Step.go here = target)
    (hentry : ∀ names, names <+: target → u.entry? names = t.entry? names ∨
      names ≠ target ∧ t.entry? names = none ∧ u.entry? names = some .directory) :
    u.follow here steps = t.follow here steps := by
  induction steps generalizing here with
  | nil => rfl
  | cons step rest ih =>
    obtain ⟨hstep, hrest⟩ := List.forall_mem_cons.1 hsteps
    cases step with
    | stay => exact ih hrest htarget
    | up => exact absurd hstep id
    | down name =>
      have hon : here ++ [name] <+: target := htarget ▸ prefix_foldl_go hrest (here ++ [name])
      rcases hentry _ hon with heq | ⟨hother, hnone, hdir⟩
      · have hname : u.lookUp here name = t.lookUp here name := by
          rw [lookUp, lookUp, isTooLong, isTooLong, hlongest, heq]
        have hfollow : u.follow (here ++ [name]) rest = t.follow (here ++ [name]) rest :=
          ih hrest htarget
        rw [follow, follow, hname, hfollow]
      · -- The name was missing, and behind it nothing but directories was made.
        have hmissing : t.follow here (.down name :: rest) = .error .notFound := by
          rw [follow, lookUp_eq_ok_iff.2 ⟨hstep, hnone⟩]
        rw [hmissing, follow, lookUp_eq_ok_iff.2 ⟨(lowers_iff hlongest _).2 hstep, hdir⟩]
        refine follow_eq_notFound (fun step hmem => (lowers_iff hlongest _).2 (hrest step hmem))
          htarget hother ?_
        rintro names hnames ⟨below, hbelow⟩ -
        have habsent : t.entry? names = none := hbelow ▸ h.entry?_eq_none hnone below
        rcases hentry names hnames with heq | ⟨hne, -, hdir'⟩
        · exact .inl (heq.trans habsent)
        · exact .inr ⟨hne, hdir'⟩

/-! ## What a change leaves over -/

/-- Directories were made along steps, and perhaps one file was changed or removed. -/
structure Residue (here : List String) (steps : List Step) (draft : List String)
    (t u : FileTree) : Prop extends Keeps t u where
  entry : ∀ names, names ≠ draft → u.entry? names = t.entry? names ∨
    t.entry? names = none ∧ u.entry? names = some .directory ∧
      ∃ front, front <+: steps ∧ names = front.foldl Step.go here

theorem MadeAlong.residue (h : MadeAlong here steps t u) (draft : List String) :
    Residue here steps draft t u where
  toKeeps := h.toGrows.keeps
  entry names _ := by
    by_cases heq : u.entry? names = t.entry? names
    · exact .inl heq
    · rcases h.entry names with heq' | ⟨hnone, hdirectory⟩
      · exact absurd heq' heq
      · exact .inr ⟨hnone, hdirectory, h.onWay names heq⟩

/-- The one file is changed once more. -/
theorem Residue.update {draft : List String} (h : Residue here steps draft t u)
    (hfile : u.entry? draft ≠ some .directory) {left : Option FileEntry}
    (hentry : v.entry? = Function.update u.entry? draft left) (hhome : v.home = u.home)
    (hlongest : v.longestName = u.longestName) : Residue here steps draft t v where
  toKeeps := h.toKeeps.trans (keeps_of_update hfile hentry hhome hlongest)
  entry names hnames := by
    rw [hentry, Function.update_of_ne hnames]
    exact h.entry names hnames

/-- Beside what is left over, a way down leads to the same thing as before. -/
theorem Residue.follow_eq {draft : List String} (h : Residue here steps draft t u)
    (hground : t.Grounded) (hsteps : ∀ step ∈ steps, t.Lowers step) {way : List Step}
    (hway : ∀ step ∈ way, t.Lowers step) (hdraft : ¬ draft <+: way.foldl Step.go here)
    (hlength : (steps.foldl Step.go here).length < (way.foldl Step.go here).length) :
    u.follow here way = t.follow here way := by
  refine hground.follow_eq h.longestName hway rfl fun names hnames => ?_
  have hne : names ≠ draft := by
    rintro rfl
    exact hdraft hnames
  refine (h.entry names hne).imp_right ?_
  rintro ⟨hnone, hdirectory, front, hfront, rfl⟩
  refine ⟨fun heq => ?_, hnone, hdirectory⟩
  have := (isPrefix_foldl_go hsteps hfront here).length_le
  rw [heq] at this
  omega

/-- However many of the steps are made, nothing is made on an open way. -/
theorem exists_makeAlong_take (h : t.follow here front = .ok (there, .directory)) (made : Bool)
    (rest : List Step) (k : Nat) : ∃ k', (makeAlong here made ((front ++ rest).take k) t).2 =
      (makeAlong there made (rest.take k') t).2 := by
  induction front generalizing here k with
  | nil =>
    cases h
    exact ⟨k, rfl⟩
  | cons step front ih =>
    cases k with
    | zero => exact ⟨0, rfl⟩
    | succ k =>
      cases step with
      | stay => exact ih h k
      | up => exact ih h k
      | down name =>
        obtain ⟨hname, h⟩ := follow_down_eq_directory_iff.1 h
        rw [List.cons_append, List.take_succ_cons, makeAlong_down, hname]
        exact ih h k

theorem madeAlong_take (h : t.follow here front = .ok (there, .directory)) (made : Bool)
    (rest : List Step) (k : Nat) :
    MadeAlong there rest t (makeAlong here made ((front ++ rest).take k) t).2 := by
  obtain ⟨k', hk⟩ := exists_makeAlong_take h made rest k
  rw [hk]
  exact (madeAlong_makeAlong there made _ t).mono (List.take_prefix k' rest)

/-- A way is open, or it is open up to a name that is no directory's. -/
theorem follow_cases (t : FileTree) (here : List String) (steps : List Step) :
    (∃ there, t.follow here steps = .ok (there, .directory)) ∨
      ∃ front name rest there, steps = front ++ .down name :: rest ∧
        t.follow here front = .ok (there, .directory) ∧
        t.lookUp there name ≠ .ok (some .directory) := by
  induction steps using List.reverseRecOn with
  | nil => exact .inl ⟨here, rfl⟩
  | append_singleton steps step ih =>
    rcases ih with ⟨there, hthere⟩ | ⟨front, name, rest, there, rfl, hfront, hname⟩
    · cases step with
      | stay => exact .inl ⟨there, follow_append hthere _⟩
      | up => exact .inl ⟨there.dropLast, follow_append hthere _⟩
      | down name =>
        by_cases hname : t.lookUp there name = .ok (some .directory)
        · refine .inl ⟨there ++ [name], ?_⟩
          rw [follow_append hthere, follow_down_eq_directory_iff]
          exact ⟨hname, rfl⟩
        · exact .inr ⟨steps, name, [], there, rfl, hthere, hname⟩
    · exact .inr ⟨front, name, rest ++ [step], there, by simp, hfront, hname⟩

/-- Nothing is made on a way that is open up to a name that is neither a directory's nor missing. -/
theorem makeAlong_take_eq (h : t.follow here front = .ok (there, .directory))
    (hname : t.lookUp there name ≠ .ok (some .directory)) (hmissing : t.lookUp there name ≠ .ok none)
    (made : Bool) (rest : List Step) (k : Nat) :
    (makeAlong here made ((front ++ .down name :: rest).take k) t).2 = t := by
  obtain ⟨k', hk⟩ := exists_makeAlong_take h made (.down name :: rest) k
  rw [hk]
  cases k' with
  | zero => rfl
  | succ k' =>
    rw [List.take_succ_cons, makeAlong_down]
    split
    · rfl
    · next hnone => exact absurd hnone hmissing
    · next hdirectory => exact absurd hdirectory hname
    · rfl

/-! ## Faults -/

/-- Faults of a file system, for one time. -/
structure Faults where
  /-- After so many steps no more directories are made. -/
  making : Option (Nat × FileError) := none
  /-- A file cannot be written; it is left as it was, or holding the given bytes. -/
  writing : Option (Option ByteArray × FileError) := none
  /-- A file cannot be renamed. -/
  moving : Option FileError := none

/-- A tree of files as a file system with faults. -/
def failing (faults : Faults) : FileSystem (StateM FileTree) where
  read := system.read
  write p bytes :=
    match faults.writing with
    | none => system.write p bytes
    | some (left, e) => fun t =>
      match t.findPlace p with
      | .error e => (.error e, t)
      | .ok names => (.error e, left.elim t fun bytes => t.place names (.file bytes))
  makeDirectories p :=
    match faults.making with
    | none => system.makeDirectories p
    | some (k, e) => fun t => (.error e, (makeAlong (t.start p) false (p.steps.take k) t).2)
  rename source target :=
    match faults.moving with
    | none => system.rename source target
    | some e => throw e
  remove := system.remove
  present := system.present

theorem failing_none : failing {} = system :=
  rfl

section

variable {faults : Faults} {result : Except FileError Unit} {bytes : ByteArray}

theorem exists_take_of_makeDirectories
    (h : ((failing faults).makeDirectories p).run.run t = (result, u)) :
    ∃ k, u = (makeAlong (t.start p) false (p.steps.take k) t).2 := by
  cases hmaking : faults.making with
  | none =>
    have hrun : ((failing faults).makeDirectories p).run.run t =
        makeAlong (t.start p) false p.steps t := by
      simp only [failing, hmaking]
      rfl
    refine ⟨p.steps.length, ?_⟩
    rw [List.take_length, ← hrun, h]
  | some fault =>
    have hrun : ((failing faults).makeDirectories p).run.run t =
        (.error fault.2, (makeAlong (t.start p) false (p.steps.take fault.1) t).2) := by
      simp only [failing, hmaking]
      rfl
    rw [hrun] at h
    cases h
    exact ⟨fault.1, rfl⟩

theorem makeDirectories_of_failing
    (h : ((failing faults).makeDirectories p).run.run t = (.ok (), u)) :
    (makeDirectories p).run.run t = (.ok (), u) := by
  cases hmaking : faults.making with
  | none =>
    simp only [failing, hmaking] at h
    exact h
  | some fault =>
    simp only [failing, hmaking] at h
    cases h

/-- A file is written as it should be, or there is an error, and then anything may be in it. -/
theorem exists_of_write (h : ((failing faults).write p bytes).run.run t = (result, u)) :
    result = .ok () ∧ (∃ names, t.findPlace p = .ok names ∧ u = t.place names (.file bytes)) ∨
      (∃ e, result = .error e) ∧ (u = t ∨
        ∃ names left, t.findPlace p = .ok names ∧ u = t.place names (.file left)) := by
  cases hwriting : faults.writing with
  | none =>
    simp only [failing, hwriting] at h
    rw [run_write] at h
    cases hplace : t.findPlace p with
    | error e =>
      rw [hplace] at h
      cases h
      exact .inr ⟨⟨e, rfl⟩, .inl rfl⟩
    | ok names =>
      rw [hplace] at h
      cases h
      exact .inl ⟨rfl, names, rfl, rfl⟩
  | some fault =>
    obtain ⟨left, e⟩ := fault
    have hrun : ((failing faults).write p bytes).run.run t =
        match t.findPlace p with
        | .error e => (.error e, t)
        | .ok names => (.error e, left.elim t fun bytes => t.place names (.file bytes)) := by
      simp only [failing, hwriting]
      rfl
    rw [hrun] at h
    cases hplace : t.findPlace p with
    | error e =>
      rw [hplace] at h
      cases h
      exact .inr ⟨⟨e, rfl⟩, .inl rfl⟩
    | ok names =>
      rw [hplace] at h
      cases left with
      | none =>
        cases h
        exact .inr ⟨⟨e, rfl⟩, .inl rfl⟩
      | some left =>
        cases h
        exact .inr ⟨⟨e, rfl⟩, .inr ⟨names, left, rfl, rfl⟩⟩

theorem eq_or_exists_of_write (h : ((failing faults).write p bytes).run.run t = (result, u)) :
    u = t ∨ ∃ names left, t.findPlace p = .ok names ∧ u = t.place names (.file left) := by
  obtain ⟨-, names, hplace, rfl⟩ | ⟨-, hleft⟩ := exists_of_write h
  · exact .inr ⟨names, bytes, hplace, rfl⟩
  · exact hleft

theorem eq_or_exists_of_remove (h : (system.remove p).run.run t = (result, u)) :
    u = t ∨ ∃ names bytes, t.findFile p = .ok (names, bytes) ∧ u = t.takeOut names := by
  rw [run_remove] at h
  cases hfind : t.findFile p with
  | error e =>
    rw [hfind] at h
    cases h
    exact .inl rfl
  | ok found =>
    rw [hfind] at h
    cases h
    exact .inr ⟨found.1, found.2, rfl, rfl⟩

/-- A file is moved, or there is an error, and then nothing changed. -/
theorem exists_of_rename {source target : Path}
    (h : ((failing faults).rename source target).run.run t = (result, u)) :
    (∃ e, result = .error e) ∧ u = t ∨ result = .ok () ∧ ∃ names bytes place,
      t.findFile source = .ok (names, bytes) ∧ t.findPlace target = .ok place ∧
        u = (t.takeOut names).place place (.file bytes) := by
  cases hmoving : faults.moving with
  | none =>
    simp only [failing, hmoving] at h
    rw [run_rename] at h
    split at h
    · cases h
      exact .inl ⟨⟨_, rfl⟩, rfl⟩
    · cases h
      exact .inl ⟨⟨_, rfl⟩, rfl⟩
    · next hfind hplace =>
      cases h
      exact .inr ⟨rfl, _, _, _, hfind, hplace, rfl⟩
  | some fault =>
    simp only [failing, hmoving] at h
    cases h
    exact .inl ⟨⟨fault, rfl⟩, rfl⟩

theorem eq_of_rename {source target : Path}
    (h : ((failing faults).rename source target).run.run t = (.error cause, u)) : u = t := by
  obtain ⟨-, hsame⟩ | ⟨hok, -⟩ := exists_of_rename h
  · exact hsame
  · cases hok

section

variable (hresidue : Residue here steps (there ++ [name]) t u)
  (hopened : u.follow (u.start p) p.steps = .ok (there, .directory))

include hresidue hopened

theorem Residue.write (h : ((failing faults).write (p.child name) bytes).run.run u = (result, v)) :
    Residue here steps (there ++ [name]) t v := by
  obtain rfl | ⟨names, left, hplace, rfl⟩ := eq_or_exists_of_write h
  · exact hresidue
  · obtain ⟨rfl, -, hfree⟩ := (findPlace_child_eq_ok_iff hopened).1 hplace
    exact hresidue.update hfree (entry?_place hfree _) rfl rfl

theorem Residue.remove (h : ((failing faults).remove (p.child name)).run.run u = (result, v)) :
    Residue here steps (there ++ [name]) t v := by
  obtain rfl | ⟨names, bytes, hfind, rfl⟩ := eq_or_exists_of_remove h
  · exact hresidue
  · obtain ⟨rfl, -, hfile⟩ := (findFile_child_eq_ok_iff hopened).1 hfind
    have hfree : u.entry? (there ++ [name]) ≠ some .directory := by simp [hfile]
    exact hresidue.update hfree (entry?_takeOut hfree) rfl rfl

end

/-- A directory is still there when a file was written in it. -/
theorem follow_of_write (hopened : u.follow (u.start p) p.steps = .ok (there, .directory))
    (h : ((failing faults).write (p.child name) bytes).run.run u = (result, v)) :
    v.follow (v.start p) p.steps = .ok (there, .directory) := by
  have hkeeps := (((MadeAlong.refl there [] u).residue (there ++ [name])).write hopened h).toKeeps
  rw [start_eq_of_home hkeeps.home]
  exact hkeeps.follow hopened

/-- A file that was written and removed is gone, and nothing else changed. -/
theorem entry?_of_write_of_remove
    (hopened : u.follow (u.start p) p.steps = .ok (there, .directory))
    (hwrite : ((failing faults).write (p.child name) bytes).run.run u = (.ok (), v))
    (hremove : ((failing faults).remove (p.child name)).run.run v = (result, w)) :
    w.entry? = Function.update u.entry? (there ++ [name]) none := by
  have hopened' := follow_of_write hopened hwrite
  obtain ⟨-, names, hplace, rfl⟩ | ⟨⟨_, herror⟩, -⟩ := exists_of_write hwrite
  · obtain ⟨rfl, hshort, hfree⟩ := (findPlace_child_eq_ok_iff hopened).1 hplace
    have hwritten := entry?_place hfree (.file bytes)
    have hfind := (findFile_child_eq_ok_iff hopened').2
      ⟨rfl, hshort, by rw [hwritten, Function.update_self]⟩
    have hrun := run_remove (p.child name) (u.place (there ++ [name]) (.file bytes))
    rw [hfind] at hrun
    cases hrun.symm.trans hremove
    rw [entry?_takeOut (by rw [hwritten, Function.update_self]; simp), hwritten,
      Function.update_idem]
  · cases herror

end

/-! ## Trees stay grounded -/

theorem entry?_nil (t : FileTree) : t.entry? [] = some .directory :=
  if_pos rfl

theorem entry?_start (t : FileTree) (p : Path) : t.entry? (t.start p) = some .directory := by
  unfold start
  split
  · exact t.entry?_nil
  · exact if_pos (by simp)

namespace Grounded

variable {faults : Faults} {result : Except FileError Unit} {bytes : ByteArray} {q : Path}

theorem entry?_dropLast (h : t.Grounded) (hhere : t.entry? here = some .directory) :
    t.entry? here.dropLast = some .directory := by
  rcases List.eq_nil_or_concat here with rfl | ⟨names, name, rfl⟩
  · exact hhere
  · rw [List.concat_eq_append] at hhere ⊢
    rw [List.dropLast_concat]
    exact h names name (by simp [hhere])

theorem entry?_of_follow (h : t.Grounded) (hhere : t.entry? here = some .directory)
    (hfollow : t.follow here steps = .ok (there, e)) : t.entry? there = some e := by
  induction steps generalizing here with
  | nil =>
    cases hfollow
    exact hhere
  | cons step rest ih =>
    cases step with
    | stay => exact ih hhere hfollow
    | up => exact ih (h.entry?_dropLast hhere) hfollow
    | down name =>
      rw [follow] at hfollow
      split at hfollow
      · cases hfollow
      · cases hfollow
      · next hname => exact ih (lookUp_eq_ok_iff.1 hname).2 hfollow
      · next hname =>
        split at hfollow
        · cases hfollow
          exact (lookUp_eq_ok_iff.1 hname).2
        · cases hfollow

theorem entry?_of_findFile (h : t.Grounded) (hfind : t.findFile p = .ok (names, bytes)) :
    t.entry? names = some (.file bytes) := by
  unfold findFile find at hfind
  split at hfind
  · next hfollow =>
    cases hfind
    split at hfollow
    · cases hfollow
    · exact h.entry?_of_follow (t.entry?_start p) hfollow
  · cases hfind
  · cases hfind

theorem entry?_of_followToDirectory (h : t.Grounded) (hhere : t.entry? here = some .directory)
    (hfollow : t.followToDirectory here steps = .ok there) : t.entry? there = some .directory := by
  unfold followToDirectory at hfollow
  split at hfollow
  · next hthere =>
    cases hfollow
    exact h.entry?_of_follow hhere hthere
  · cases hfollow
  · cases hfollow

/-- A file is put in a directory, and not in the place of one. -/
theorem exists_of_findPlace (h : t.Grounded) (hplace : t.findPlace p = .ok names) :
    ∃ there name, names = there ++ [name] ∧ t.entry? there = some .directory ∧
      t.entry? (there ++ [name]) ≠ some .directory := by
  unfold findPlace at hplace
  cases hthere : t.followToDirectory (t.start p) p.steps.dropLast with
  | error e =>
    rw [hthere] at hplace
    cases hplace
  | ok there =>
    rw [hthere] at hplace
    have hdirectory := h.entry?_of_followToDirectory (t.entry?_start p) hthere
    simp only [bind, Except.bind] at hplace
    split at hplace
    · next name _ =>
      cases hname : t.lookUp there name with
      | error e =>
        rw [hname] at hplace
        cases hplace
      | ok found =>
        obtain ⟨-, hentry⟩ := lookUp_eq_ok_iff.1 hname
        rw [hname] at hplace
        rcases found with _ | _ | _
        · cases hplace
          exact ⟨there, name, rfl, hdirectory, by simp [hentry]⟩
        · cases hplace
          exact ⟨there, name, rfl, hdirectory, by simp [hentry]⟩
        · cases hplace
    · cases hplace

theorem takeOut (h : t.Grounded) (hfile : t.entry? names = some (.file bytes)) :
    (t.takeOut names).Grounded := by
  rcases List.eq_nil_or_concat names with rfl | ⟨there, name, rfl⟩
  · cases hfile.symm.trans t.entry?_nil
  · rw [List.concat_eq_append] at hfile ⊢
    have hfree : t.entry? (there ++ [name]) ≠ some .directory := by simp [hfile]
    exact h.update hfree (entry?_takeOut hfree) (.inl rfl)

theorem makeAlong (h : t.Grounded) (hhere : t.entry? here = some .directory) (made : Bool)
    (steps : List Step) : (FileTree.makeAlong here made steps t).2.Grounded := by
  induction steps generalizing here made t with
  | nil => exact h
  | cons step rest ih =>
    cases step with
    | stay => exact ih h hhere made
    | up => exact ih h (h.entry?_dropLast hhere) made
    | down name =>
      rw [makeAlong_down]
      split
      · exact h
      · next hname =>
        have hfree : t.entry? (here ++ [name]) ≠ some .directory := by
          simp [(lookUp_eq_ok_iff.1 hname).2]
        refine ih (h.place hhere hfree _) ?_ true
        rw [entry?_place hfree, Function.update_self]
      · next hname => exact ih h (lookUp_eq_ok_iff.1 hname).2 made
      · exact h

theorem makeDirectories (h : t.Grounded)
    (hmake : ((failing faults).makeDirectories p).run.run t = (result, u)) : u.Grounded := by
  obtain ⟨k, rfl⟩ := exists_take_of_makeDirectories hmake
  exact h.makeAlong (t.entry?_start p) false _

theorem write (h : t.Grounded)
    (hwrite : ((failing faults).write p bytes).run.run t = (result, u)) : u.Grounded := by
  obtain rfl | ⟨names, left, hplace, rfl⟩ := eq_or_exists_of_write hwrite
  · exact h
  · obtain ⟨there, name, rfl, hdirectory, hfree⟩ := h.exists_of_findPlace hplace
    exact h.place hdirectory hfree _

theorem remove (h : t.Grounded)
    (hremove : (system.remove p).run.run t = (result, u)) : u.Grounded := by
  obtain rfl | ⟨names, bytes, hfind, rfl⟩ := eq_or_exists_of_remove hremove
  · exact h
  · exact h.takeOut (h.entry?_of_findFile hfind)

theorem rename (h : t.Grounded)
    (hrename : ((failing faults).rename p q).run.run t = (result, u)) : u.Grounded := by
  obtain ⟨-, rfl⟩ | ⟨-, names, bytes, place, hfind, hplace, rfl⟩ := exists_of_rename hrename
  · exact h
  · have hfile := h.entry?_of_findFile hfind
    obtain ⟨there, name, rfl, hdirectory, hfree⟩ := h.exists_of_findPlace hplace
    have hout : FileTree.entry? (t.takeOut names) = Function.update t.entry? names none :=
      entry?_takeOut (by simp [hfile])
    refine (h.takeOut hfile).place ?_ ?_ _
    · have hother : there ≠ names := by
        rintro rfl
        cases hfile.symm.trans hdirectory
      rwa [hout, Function.update_of_ne hother]
    · rw [hout]
      by_cases hsame : there ++ [name] = names
      · simp [hsame]
      · rwa [Function.update_of_ne hsame]

end Grounded

end ImplicitTiling.FileTree
