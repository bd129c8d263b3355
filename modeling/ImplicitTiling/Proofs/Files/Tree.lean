import ImplicitTiling.Files.Tree
import Mathlib.Data.List.Basic
import Mathlib.Logic.Function.Basic

/-!
# Ways through a tree of files

Where paths lead in a tree, and what becomes of that when the tree changes. A tree has no links, so
steps lead to the same names whatever stands under them (`follow_names`). The way to a directory
stays open as long as the directories are kept (`Keeps.follow`). Making directories adds directories
on the way and nothing else (`madeAlong_makeAlong`), and where it succeeds the way is open
(`follow_of_makeAlong`). Before that the way was open already, or it ended where a name was missing
(`follow_before_makeAlong`).
-/

namespace ImplicitTiling

/-- The names that a step leads to from a directory, if a directory stands under them. -/
def Step.go (here : List String) : Step → List String
  | .stay => here
  | .up => here.dropLast
  | .down name => here ++ [name]

@[simp] theorem Path.steps_child (p : Path) (name : String) :
    (p.child name).steps = p.steps ++ [.down name] := by
  simp [Path.steps, Path.child]

theorem Path.child_ne_ofText (p : Path) (name root : String) : p.child name ≠ .ofText root := by
  intro h
  have hnames : p.names ++ [name] = [] := congrArg Path.names h
  simp at hnames

namespace FileTree

variable {t u v : FileTree} {p : Path} {here there names : List String} {name : String}
  {e : FileEntry} {cause : FileError} {steps front rest : List Step} {made : Bool}

/-- The names that a path leads to, if directories stand on its way. -/
def leadsTo (t : FileTree) (p : Path) : List String :=
  p.steps.foldl Step.go (t.start p)

theorem start_eq_of_home (h : u.home = t.home) (p : Path) : u.start p = t.start p := by
  unfold start
  rw [h]

@[simp] theorem start_child (t : FileTree) (p : Path) (name : String) :
    t.start (p.child name) = t.start p := rfl

@[simp] theorem leadsTo_child (t : FileTree) (p : Path) (name : String) :
    t.leadsTo (p.child name) = t.leadsTo p ++ [name] := by
  simp [leadsTo, Step.go]

/-! ## Entries -/

/-- Where no directory stands, another entry can stand. -/
theorem entry?_of_entries (h : t.entry? names ≠ some .directory) (hhome : u.home = t.home)
    {found : Option FileEntry} (hself : u.entries[names]? = found)
    (hrest : ∀ other, other ≠ names → u.entries[other]? = t.entries[other]?) :
    u.entry? = Function.update t.entry? names found := by
  -- What is on the way to the working directory is a directory in any tree.
  have hnames : ¬ names.isPrefixOf t.home = true := fun hprefix => h (if_pos hprefix)
  funext other
  by_cases hother : other = names
  · subst hother
    rw [Function.update_self, entry?, hhome, if_neg hnames, hself]
  · rw [Function.update_of_ne hother, entry?, entry?, hhome, hrest other hother]

theorem entry?_place (h : t.entry? names ≠ some .directory) (e : FileEntry) :
    FileTree.entry? (t.place names e) = Function.update t.entry? names (some e) := by
  refine entry?_of_entries (u := t.place names e) h rfl Std.HashMap.getElem?_insert_self
    fun other hother => ?_
  rw [place, Std.HashMap.getElem?_insert, if_neg (by simpa using Ne.symm hother)]

theorem entry?_takeOut (h : t.entry? names ≠ some .directory) :
    FileTree.entry? (t.takeOut names) = Function.update t.entry? names none := by
  refine entry?_of_entries (u := t.takeOut names) h rfl Std.HashMap.getElem?_erase_self
    fun other hother => ?_
  rw [takeOut, Std.HashMap.getElem?_erase, if_neg (by simpa using Ne.symm hother)]

/-- A file that is written under a free name and then moved is as if written in its place. -/
theorem entry?_moved {place : List String} (hfree : t.entry? names = none)
    (hplace : t.entry? place ≠ some .directory) (bytes : ByteArray) :
    FileTree.entry? (((t.place names (.file bytes)).takeOut names).place place (.file bytes)) =
      Function.update t.entry? place (some (.file bytes)) := by
  have hwritten : FileTree.entry? (t.place names (.file bytes)) =
      Function.update t.entry? names _ :=
    entry?_place (by simp [hfree]) _
  have htaken : FileTree.entry? ((t.place names (.file bytes)).takeOut names) =
      Function.update _ names none :=
    entry?_takeOut (by rw [hwritten, Function.update_self]; simp)
  rw [hwritten, Function.update_idem, ← hfree, Function.update_eq_self] at htaken
  rw [entry?_place (by rw [htaken]; exact hplace), htaken]

theorem lookUp_eq_ok_iff {found : Option FileEntry} : t.lookUp here name = .ok found ↔
    t.isTooLong name = false ∧ t.entry? (here ++ [name]) = found := by
  unfold lookUp
  cases t.isTooLong name <;> simp

theorem lookUp_place (h : t.lookUp here name = .ok none) (e : FileEntry) :
    (t.place (here ++ [name]) e).lookUp here name = .ok (some e) := by
  obtain ⟨hshort, hentry⟩ := lookUp_eq_ok_iff.1 h
  refine lookUp_eq_ok_iff.2 ⟨hshort, ?_⟩
  rw [entry?_place (by simp [hentry]), Function.update_self]

/-! ## Following steps -/

theorem follow_down_eq_directory_iff :
    t.follow here (.down name :: rest) = .ok (there, .directory) ↔
      t.lookUp here name = .ok (some .directory) ∧
        t.follow (here ++ [name]) rest = .ok (there, .directory) := by
  rw [follow]
  split
  next hname => simp [hname]
  next hname => simp [hname]
  next hname => simp [hname]
  next hname => split <;> simp [hname]

/-- What steps lead to stands under the names that they lead to. -/
theorem follow_names (h : t.follow here steps = .ok (there, e)) :
    there = steps.foldl Step.go here := by
  induction steps generalizing here with
  | nil =>
    cases h
    rfl
  | cons step rest ih =>
    cases step with
    | stay => exact ih h
    | up => exact ih h
    | down name =>
      rw [follow] at h
      split at h
      · cases h
      · cases h
      · exact ih h
      · split at h
        · next hrest =>
          cases h
          rw [List.isEmpty_iff.1 hrest]
          rfl
        · cases h

theorem follow_append (h : t.follow here front = .ok (there, .directory)) (rest : List Step) :
    t.follow here (front ++ rest) = t.follow there rest := by
  induction front generalizing here with
  | nil =>
    cases h
    rfl
  | cons step front ih =>
    cases step with
    | stay => exact ih h
    | up => exact ih h
    | down name =>
      obtain ⟨hname, h⟩ := follow_down_eq_directory_iff.1 h
      rw [List.cons_append, follow, hname]
      exact ih h

/-! ## Changes that keep the directories -/

/-- A tree with the directories of another one, and perhaps more or other things beside them. -/
structure Keeps (t u : FileTree) : Prop where
  home : u.home = t.home
  longestName : u.longestName = t.longestName
  directory : ∀ names, t.entry? names = some .directory → u.entry? names = some .directory

/-- The way to a directory stays open. -/
theorem Keeps.follow (h : Keeps t u) (hfollow : t.follow here steps = .ok (there, .directory)) :
    u.follow here steps = .ok (there, .directory) := by
  induction steps generalizing here with
  | nil => exact hfollow
  | cons step rest ih =>
    cases step with
    | stay => exact ih hfollow
    | up => exact ih hfollow
    | down name =>
      rw [follow_down_eq_directory_iff, lookUp_eq_ok_iff] at hfollow ⊢
      obtain ⟨⟨hshort, hname⟩, hfollow⟩ := hfollow
      rw [isTooLong, h.longestName]
      exact ⟨⟨hshort, h.directory _ hname⟩, ih hfollow⟩

theorem Keeps.trans (h : Keeps t u) (h' : Keeps u v) : Keeps t v where
  home := h'.home.trans h.home
  longestName := h'.longestName.trans h.longestName
  directory names hnames := h'.directory names (h.directory names hnames)

theorem keeps_of_update (h : t.entry? names ≠ some .directory) {found : Option FileEntry}
    (hentry : u.entry? = Function.update t.entry? names found) (hhome : u.home = t.home)
    (hlongest : u.longestName = t.longestName) : Keeps t u where
  home := hhome
  longestName := hlongest
  directory other hother := by
    have hne : other ≠ names := by
      rintro rfl
      exact h hother
    rw [hentry, Function.update_of_ne hne, hother]

/-! ## Making directories -/

/-- A tree with more directories, and all else the same. -/
structure Grows (t u : FileTree) : Prop where
  home : u.home = t.home
  longestName : u.longestName = t.longestName
  entry : ∀ names, u.entry? names = t.entry? names ∨
    t.entry? names = none ∧ u.entry? names = some .directory

theorem Grows.refl (t : FileTree) : Grows t t :=
  ⟨rfl, rfl, fun _ => .inl rfl⟩

theorem Grows.keeps (h : Grows t u) : Keeps t u where
  home := h.home
  longestName := h.longestName
  directory names hnames := by
    rcases h.entry names with heq | ⟨hnone, -⟩
    · rw [heq, hnames]
    · rw [hnames] at hnone
      cases hnone

/-- No file comes or goes. -/
theorem Grows.entry_eq_file_iff (h : Grows t u) {bytes : ByteArray} :
    u.entry? names = some (.file bytes) ↔ t.entry? names = some (.file bytes) := by
  rcases h.entry names with heq | ⟨hnone, hdirectory⟩
  · rw [heq]
  · simp [hnone, hdirectory]

/-- What is found is found again. -/
theorem Grows.lookUp (h : Grows t u) (hname : t.lookUp here name = .ok (some e)) :
    u.lookUp here name = .ok (some e) := by
  obtain ⟨hshort, hentry⟩ := lookUp_eq_ok_iff.1 hname
  refine lookUp_eq_ok_iff.2 ⟨?_, ?_⟩
  · rw [isTooLong, h.longestName]
    exact hshort
  · rcases h.entry (here ++ [name]) with heq | ⟨hnone, -⟩
    · rw [heq, hentry]
    · rw [hentry] at hnone
      cases hnone

theorem Grows.trans (h : Grows t u) (h' : Grows u v) : Grows t v where
  home := h'.home.trans h.home
  longestName := h'.longestName.trans h.longestName
  entry names := by
    rcases h.entry names with heq | ⟨hnone, hdirectory⟩
    · rw [← heq]
      exact h'.entry names
    · exact .inr ⟨hnone, h'.keeps.directory names hdirectory⟩

theorem grows_place (h : t.entry? names = none) : Grows t (t.place names .directory) where
  home := rfl
  longestName := rfl
  entry other := by
    rw [entry?_place (by simp [h])]
    by_cases hother : other = names
    · subst hother
      exact .inr ⟨h, Function.update_self ..⟩
    · exact .inl (Function.update_of_ne hother ..)

theorem makeAlong_down (here : List String) (made : Bool) (name : String) (rest : List Step)
    (t : FileTree) : makeAlong here made (.down name :: rest) t =
      match t.lookUp here name with
      | .error e => (.error e, t)
      | .ok none => makeAlong (here ++ [name]) true rest (t.place (here ++ [name]) .directory)
      | .ok (some .directory) => makeAlong (here ++ [name]) made rest t
      | .ok (some (.file _)) =>
        (.error (if made || rest.isEmpty then .alreadyExists else .notADirectory), t) := rfl

/-- Directories were made on the way along steps, and all else is the same. -/
structure MadeAlong (here : List String) (steps : List Step) (t u : FileTree) : Prop
    extends Grows t u where
  onWay : ∀ names, u.entry? names ≠ t.entry? names →
    ∃ front, front <+: steps ∧ names = front.foldl Step.go here

theorem MadeAlong.refl (here : List String) (steps : List Step) (t : FileTree) :
    MadeAlong here steps t t :=
  ⟨.refl t, fun _ hnames => absurd rfl hnames⟩

theorem MadeAlong.cons (step : Step) (hgrows : Grows t u)
    (hstep : ∀ names, u.entry? names ≠ t.entry? names → names = step.go here)
    (h : MadeAlong (step.go here) rest u v) : MadeAlong here (step :: rest) t v where
  toGrows := hgrows.trans h.toGrows
  onWay names hnames := by
    by_cases hu : u.entry? names = t.entry? names
    · rw [← hu] at hnames
      obtain ⟨front, hfront, rfl⟩ := h.onWay names hnames
      exact ⟨step :: front, (List.prefix_cons_inj step).2 hfront, rfl⟩
    · exact ⟨[step], by simp, hstep names hu⟩

theorem MadeAlong.mono (h : MadeAlong here front t u) (hfront : front <+: steps) :
    MadeAlong here steps t u where
  toGrows := h.toGrows
  onWay names hnames := by
    obtain ⟨first, hfirst, heq⟩ := h.onWay names hnames
    exact ⟨first, hfirst.trans hfront, heq⟩

theorem madeAlong_makeAlong (here : List String) (made : Bool) (steps : List Step)
    (t : FileTree) : MadeAlong here steps t (makeAlong here made steps t).2 := by
  induction steps generalizing here made t with
  | nil => exact .refl here [] t
  | cons step rest ih =>
    cases step with
    | stay => exact .cons .stay (.refl t) (fun _ h => absurd rfl h) (ih here made t)
    | up => exact .cons .up (.refl t) (fun _ h => absurd rfl h) (ih _ made t)
    | down name =>
      rw [makeAlong_down]
      split
      · exact .refl here _ t
      · next hname =>
        obtain ⟨-, hnone⟩ := lookUp_eq_ok_iff.1 hname
        refine .cons (.down name) (grows_place hnone) (fun names hnames => ?_) (ih _ _ _)
        by_contra hne
        have hother : names ≠ here ++ [name] := hne
        rw [entry?_place (by simp [hnone]), Function.update_of_ne hother] at hnames
        exact hnames rfl
      · exact .cons (.down name) (.refl t) (fun _ h => absurd rfl h) (ih _ made t)
      · exact .refl here _ t

/-- Nothing is made where the way is open. -/
theorem makeAlong_of_follow (h : t.follow here front = .ok (there, .directory)) (made : Bool)
    (rest : List Step) : makeAlong here made (front ++ rest) t = makeAlong there made rest t := by
  induction front generalizing here with
  | nil =>
    cases h
    rfl
  | cons step front ih =>
    cases step with
    | stay => exact ih h
    | up => exact ih h
    | down name =>
      obtain ⟨hname, h⟩ := follow_down_eq_directory_iff.1 h
      rw [List.cons_append, makeAlong_down, hname]
      exact ih h

/-- Where directories were made along the first steps, they are made along the others from there. -/
theorem makeAlong_append (h : makeAlong here made front t = (.ok (), u)) (rest : List Step) :
    ∃ made', makeAlong here made (front ++ rest) t =
      makeAlong (front.foldl Step.go here) made' rest u := by
  induction front generalizing here made t with
  | nil =>
    cases h
    exact ⟨made, rfl⟩
  | cons step front ih =>
    cases step with
    | stay => exact ih h
    | up => exact ih h
    | down name =>
      rw [makeAlong_down] at h
      rw [List.cons_append, makeAlong_down]
      split at h
      · cases h
      · next hname => exact ih h
      · next hname => exact ih h
      · cases h

/-- Where making directories succeeds, the way is open. -/
theorem follow_of_makeAlong (h : makeAlong here made steps t = (.ok (), u)) :
    u.follow here steps = .ok (steps.foldl Step.go here, .directory) := by
  induction steps generalizing here made t with
  | nil =>
    cases h
    rfl
  | cons step rest ih =>
    cases step with
    | stay => exact ih h
    | up => exact ih h
    | down name =>
      rw [makeAlong_down] at h
      rw [follow_down_eq_directory_iff, lookUp_eq_ok_iff]
      have hgrows := (madeAlong_makeAlong (here ++ [name]) made rest t).toGrows
      split at h
      · cases h
      · next hname =>
        obtain ⟨hshort, hnone⟩ := lookUp_eq_ok_iff.1 hname
        have hgrows := (madeAlong_makeAlong (here ++ [name]) true rest
          (t.place (here ++ [name]) .directory)).toGrows
        rw [h] at hgrows
        refine ⟨⟨?_, hgrows.keeps.directory _ ?_⟩, ih h⟩
        · rw [isTooLong, hgrows.longestName]
          exact hshort
        · rw [entry?_place (by simp [hnone]), Function.update_self]
      · next hname =>
        obtain ⟨hshort, hdirectory⟩ := lookUp_eq_ok_iff.1 hname
        rw [h] at hgrows
        refine ⟨⟨?_, hgrows.keeps.directory _ hdirectory⟩, ih h⟩
        rw [isTooLong, hgrows.longestName]
        exact hshort
      · cases h

/-- Where making directories succeeds, the way was open before, or it ended at a missing name. -/
theorem follow_before_makeAlong (h : makeAlong here made steps t = (.ok (), u)) :
    u = t ∧ t.follow here steps = .ok (steps.foldl Step.go here, .directory) ∨
      ∀ rest, t.follow here (steps ++ rest) = .error .notFound := by
  induction steps generalizing here made with
  | nil =>
    cases h
    exact .inl ⟨rfl, rfl⟩
  | cons step rest ih =>
    cases step with
    | stay => exact ih h
    | up => exact ih h
    | down name =>
      rw [makeAlong_down] at h
      rw [follow_down_eq_directory_iff]
      simp only [List.cons_append, follow]
      rcases hname : t.lookUp here name with e | _ | bytes | _ <;> rw [hname] at h
      · cases h
      · exact .inr fun _ => rfl
      · cases h
      · exact (ih h).imp_left fun ⟨hu, hfollow⟩ => ⟨hu, rfl, hfollow⟩

section

variable {result : Except FileError Unit}

theorem madeAlong_of_makeDirectories (h : (makeDirectories p).run.run t = (result, u)) :
    MadeAlong (t.start p) p.steps t u := by
  have hmade := madeAlong_makeAlong (t.start p) false p.steps t
  have hrun : makeAlong (t.start p) false p.steps t = (result, u) := h
  rwa [hrun] at hmade

/-- A directory that was made is there. -/
theorem follow_of_makeDirectories (h : (makeDirectories p).run.run t = (.ok (), u)) :
    u.follow (u.start p) p.steps = .ok (t.leadsTo p, .directory) := by
  rw [start_eq_of_home (madeAlong_of_makeDirectories h).home]
  exact follow_of_makeAlong h

end

/-! ## Paths into a directory -/

section

variable (h : t.follow (t.start p) p.steps = .ok (there, .directory)) (name : String)

include h

theorem find_child : t.find (p.child name) =
    match t.lookUp there name with
    | .error e => .error e
    | .ok none => .error .notFound
    | .ok (some e) => .ok (there ++ [name], e) := by
  rw [find, if_neg (p.child_ne_ofText name ""), Path.steps_child, start_child, follow_append h,
    follow]
  cases t.lookUp there name with
  | error e => rfl
  | ok found => rcases found with _ | _ | _ <;> rfl

theorem findPlace_child : t.findPlace (p.child name) =
    match t.lookUp there name with
    | .error e => .error e
    | .ok (some .directory) => .error .isADirectory
    | .ok _ => .ok (there ++ [name]) := by
  unfold findPlace followToDirectory
  rw [Path.steps_child, start_child, List.dropLast_concat, List.getLast?_concat, h]
  simp only [bind, Except.bind]
  cases t.lookUp there name with
  | error e => rfl
  | ok found => rcases found with _ | _ | _ <;> rfl

end

theorem findPlace_child_eq_ok_iff (h : t.follow (t.start p) p.steps = .ok (there, .directory)) :
    t.findPlace (p.child name) = .ok names ↔
      names = there ++ [name] ∧ t.isTooLong name = false ∧
        t.entry? (there ++ [name]) ≠ some .directory := by
  rw [findPlace_child h, lookUp]
  cases t.isTooLong name with
  | true => simp
  | false =>
    rcases t.entry? (there ++ [name]) with _ | _ | _ <;> simp [eq_comm]

theorem findFile_child_eq_ok_iff (h : t.follow (t.start p) p.steps = .ok (there, .directory))
    {bytes : ByteArray} : t.findFile (p.child name) = .ok (names, bytes) ↔
      names = there ++ [name] ∧ t.isTooLong name = false ∧
        t.entry? (there ++ [name]) = some (.file bytes) := by
  rw [findFile, find_child h, lookUp]
  cases t.isTooLong name with
  | true => simp
  | false =>
    rcases t.entry? (there ++ [name]) with _ | _ | _ <;> simp [eq_comm]

/-! ## Operations -/

theorem run_write (p : Path) (bytes : ByteArray) (t : FileTree) :
    (system.write p bytes).run.run t =
      match t.findPlace p with
      | .error e => (.error e, t)
      | .ok names => (.ok (), t.place names (.file bytes)) := by
  show write p bytes t = _
  unfold write change
  dsimp only
  cases t.findPlace p <;> rfl

theorem run_remove (p : Path) (t : FileTree) :
    (system.remove p).run.run t =
      match t.findFile p with
      | .error e => (.error e, t)
      | .ok (names, _) => (.ok (), t.takeOut names) := by
  show remove p t = _
  unfold remove change
  dsimp only
  cases t.findFile p <;> rfl

theorem run_rename (source target : Path) (t : FileTree) :
    (system.rename source target).run.run t =
      match t.findFile source, t.findPlace target with
      | .error e, _ => (.error e, t)
      | .ok _, .error e => (.error e, t)
      | .ok (names, bytes), .ok place => (.ok (), (t.takeOut names).place place (.file bytes)) := by
  show rename source target t = _
  unfold rename change
  dsimp only
  cases t.findFile source with
  | error e => rfl
  | ok found => cases t.findPlace target <;> rfl

section

variable (h : t.follow (t.start p) p.steps = .ok (there, .directory))
  (hshort : t.isTooLong name = false) {bytes : ByteArray}

include h hshort

/-- A file is written where no directory stands. -/
theorem run_write_child (hfree : t.entry? (there ++ [name]) ≠ some .directory) :
    (system.write (p.child name) bytes).run.run t =
      (.ok (), t.place (there ++ [name]) (.file bytes)) := by
  rw [run_write, (findPlace_child_eq_ok_iff h).2 ⟨rfl, hshort, hfree⟩]

/-- A file gets another name in its directory. -/
theorem run_rename_child (hfile : t.entry? (there ++ [name]) = some (.file bytes))
    {name' : String} (hshort' : t.isTooLong name' = false)
    (hfree : t.entry? (there ++ [name']) ≠ some .directory) :
    (system.rename (p.child name) (p.child name')).run.run t =
      (.ok (), (t.takeOut (there ++ [name])).place (there ++ [name']) (.file bytes)) := by
  rw [run_rename, (findFile_child_eq_ok_iff h).2 ⟨rfl, hshort, hfile⟩,
    (findPlace_child_eq_ok_iff h).2 ⟨rfl, hshort', hfree⟩]

end

end FileTree

end ImplicitTiling
