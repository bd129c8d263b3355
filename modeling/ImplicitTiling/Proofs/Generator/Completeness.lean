import ImplicitTiling.Proofs.Generator.Walk
import Mathlib.Order.Bounds.Basic

/-!
# The output of a run is complete

Whatever earlier runs with the same schedule and footprints left in the output, a run in which no
file operation fails writes the subtrees of all wanted rank roots and of no others, and a manifest
that counts them: `run_complete`.
-/

namespace ImplicitTiling.Generator

open Store Recorded

variable {σ : Type} {top : Path} {view : σ → Files} {host : Host (StateM σ)}

/-- From one state to another files were read at most. -/
def OnlyRead (top : Path) (view : σ → Files) (m m' : Recorded σ) : Prop :=
  view m'.state = view m.state ∧
    m'.writesIn (top.child "subtrees") = m.writesIn (top.child "subtrees")

theorem OnlyRead.refl (m : Recorded σ) : OnlyRead top view m m :=
  ⟨rfl, rfl⟩

theorem OnlyRead.trans (m m' m'' : Recorded σ) (h : OnlyRead top view m m')
    (h' : OnlyRead top view m' m'') : OnlyRead top view m m'' :=
  ⟨h'.1.trans h.1, h'.2.trans h.2⟩

theorem onlyRead_inputs (hhost : host.Lawful top view) (words : List String) :
    Leads (OnlyRead top view) (inputs host.recorded words).run := by
  refine leads_inputs OnlyRead.refl OnlyRead.trans (fun p m => ?_) words
  refine ⟨hhost.files.view_read p m.state, ?_⟩
  show writesIn _ ⟨_, .read _ _ :: m.deeds⟩ = _
  rw [writesIn_cons]
  exact List.append_nil _

theorem valid_of_implicit {s : Schedule} {options : TilesetOptions} {tileset : Tileset}
    (h : Tileset.implicit s options = .ok tileset) : s.Valid ∧ s.minLevel = 0 := by
  unfold Tileset.implicit at h
  cases hv : s.validate with
  | error e =>
    rw [hv] at h
    cases h
  | ok =>
    refine ⟨(Schedule.validate_eq_ok_iff s).1 hv, ?_⟩
    by_contra hmin
    rw [hv, if_pos hmin] at h
    cases h

/-- A run that gets as far as to its footprints has a valid schedule that starts at level 0. -/
theorem valid_of_inputs {host : Host (StateM σ)} {words : List String} {c c' : σ} {x : Inputs}
    (h : (inputs host words).run.run c = (.ok x, c')) :
    x.schedule.Valid ∧ x.schedule.minLevel = 0 := by
  unfold inputs at h
  obtain ⟨options, c₁, -, h⟩ := exists_of_bind_ok h
  obtain ⟨s, c₂, -, h⟩ := exists_of_bind_ok h
  obtain ⟨tileset, c₃, htileset, h⟩ := exists_of_bind_ok h
  obtain ⟨content, c₄, -, h⟩ := exists_of_bind_ok h
  obtain ⟨index, c₅, -, h⟩ := exists_of_bind_ok h
  have hx : (⟨options, s, tileset, index⟩ : Inputs) = x := Except.ok.inj (congrArg Prod.fst h)
  rw [← hx]
  have htileset : (Tileset.implicit s {}).mapError Error.config = .ok tileset :=
    congrArg Prod.fst htileset
  cases hs : Tileset.implicit s {} with
  | ok tileset => exact valid_of_implicit hs
  | error e =>
    rw [hs] at htileset
    cases htileset

/-! ## What a run delivers -/

section

variable {s : Schedule} {E : Node → Bool} {m : Recorded σ}

theorem delivers_printAll (hhost : host.Lawful top view) (hsound : CacheSound s E (view m.state))
    (lines : List String) :
    Delivers s E top view (printAll host.recorded lines) m []
      (fun _ m' => view m'.state = view m.state) := by
  unfold printAll
  induction lines generalizing m with
  | nil => exact .pure hsound rfl
  | cons line rest ih =>
    refine Delivers.bind_last (.unrecorded (hhost.view_print line) hsound) fun _ m₁ hsound₁ h => ?_
    exact (ih hsound₁).mono fun _ m₂ h' => h'.trans h

/-- A file right in the directory of the output. -/
theorem delivers_writeOutput {files : FileSystem (StateM σ)} (hfiles : files.Lawful top view)
    (hsound : CacheSound s E (view m.state)) {name : String} (hname : Path.IsName name)
    (bytes : ByteArray) :
    Delivers s E top view (files.recorded.write (top.child name) bytes) m []
      (fun _ m' => view m'.state [name] = some bytes) := by
  refine delivers_write_aside hfiles (List.forall_mem_singleton.2 hname) hsound bytes ?_ ?_ ?_
  · intro n
    simp [blobNames, levelNames]
  · intro t
    simp [subtreeNames]
  · have hparent : (top.under [name]).parent = top.under [] :=
      Path.parent_under_concat top [] name
    rw [hparent, Path.child_eq_under]
    exact fun h => List.cons_ne_nil _ _ (Path.under_injective h).symm

end

/-- The manifest of a run that visited some tiles in so many waves. -/
def manifestBytes (s : Schedule) (E : Node → Bool) (visited : List Tile) (waves nanoseconds : Nat) :
    ByteArray :=
  Octets.pack (manifest s ⟨visited.length, totalBytes s E visited, waves⟩ nanoseconds).pretty

theorem delivers_generate (hhost : host.Lawful top view) {x : Inputs} (hs : x.schedule.Valid)
    (hmin : x.schedule.minLevel = 0) (htop : Path.ofText x.options.output = top) :
    ∃ visited waves, IsWalk x.schedule (touched x.footprints) 0 visited waves ∧
      ∀ m : Recorded σ, CacheSound x.schedule (touched x.footprints) (view m.state) →
        Delivers x.schedule (touched x.footprints) top view (generate host.recorded x) m visited
          (fun _ m' => ∃ nanoseconds, view m'.state ["manifest.json"] =
            some (manifestBytes x.schedule (touched x.footprints) visited waves nanoseconds)) := by
  obtain ⟨visited, waves, hwalk, hdelivers⟩ := delivers_walk hhost hs hmin (Nat.zero_add _)
    (isWave_root x.schedule (touched x.footprints))
  refine ⟨visited, waves, hwalk, fun m hsound => ?_⟩
  unfold generate
  rw [htop, hmin]
  show Delivers _ _ top view _ m ([] ++ ([] ++ visited)) _
  refine (delivers_printAll hhost hsound _).bind fun _ m₁ hsound₁ _ => ?_
  refine Delivers.bind (.unrecorded hhost.view_clock hsound₁) fun start m₂ hsound₂ _ => ?_
  refine (hdelivers m₂ {} hsound₂).bind_last fun done m₃ hsound₃ hdone => ?_
  refine Delivers.bind_last (.unrecorded hhost.view_clock hsound₃) fun stop m₄ hsound₄ _ => ?_
  have hnone : ∀ name ∈ ([] : List String), Path.IsName name := List.forall_mem_nil _
  have houtput := delivers_makeDirectories hhost.files hnone hsound₄
  rw [Path.under_nil] at houtput
  refine (houtput.adapt _).bind_last fun _ m₅ hsound₅ _ => ?_
  refine ((delivers_writeOutput hhost.files hsound₅ (Path.isName_iff.2 (by decide)) _).adapt
    _).bind_last fun _ m₆ hsound₆ _ => ?_
  refine ((delivers_writeOutput hhost.files hsound₆ (Path.isName_iff.2 (by decide)) _).adapt
    _).bind_last fun _ m₇ hsound₇ hmanifest => ?_
  refine (delivers_printAll hhost hsound₇ _).mono fun _ m₈ hview => ⟨stop - start, ?_⟩
  rw [hview, hmanifest, hdone, Nat.zero_add, Nat.zero_add, Nat.zero_add]
  rfl

/-! ## Completeness -/

/-- The files below `top` are as they may be before a run: there are none, or earlier runs with the
same schedule and footprints left them, finished or stopped by an error. The visits of one wave touch
different files, and several workers may share them, so a run that stops inside a wave leaves what
some of the wave's visits left, in whatever order they were made. -/
inductive Left (s : Schedule) (index : Footprints) (top : Path) (view : σ → Files) :
    Recorded σ → Prop where
  /-- There are no files. -/
  | empty (m : Recorded σ) (h : ∀ names, view m.state names = none) : Left s index top view m
  /-- A run, of any process and with any other options, however it ended. -/
  | run {m m' : Recorded σ} (h : Left s index top view m) {host : Host (StateM σ)}
    (hhost : host.Lawful top view) {words : List String} {x : Inputs}
    (hinputs : (inputs host.recorded words).run.run m = (.ok x, m')) (hs : x.schedule = s)
    (hindex : x.footprints = index) (htop : Path.ofText x.options.output = top) :
    Left s index top view ((Generator.run host.recorded words).run.run m).2
  /-- The visit of any rank root, however it ended. -/
  | visit {m : Recorded σ} (h : Left s index top view m) {host : Host (StateM σ)}
    (hhost : host.Lawful top view) (hs : s.Valid) {t : Tile} (hroot : s.isRankRoot t.level = true)
    (hin : inLevel t = true) :
    Left s index top view ((Generator.visit host.recorded s index top t).run.run m).2
  /-- Something that has nothing to do with these files. -/
  | elsewhere {m m' : Recorded σ} (h : Left s index top view m)
    (hview : view m'.state = view m.state) : Left s index top view m'

theorem Left.cacheSound {s : Schedule} {index : Footprints} {m : Recorded σ}
    (h : Left s index top view m) : CacheSound s (touched index) (view m.state) := by
  induction h with
  | empty m h =>
    intro n bytes hbytes
    rw [h] at hbytes
    cases hbytes
  | @run m m' _ host hhost words x hinputs hs hindex htop ih =>
    subst hs hindex
    obtain ⟨hvalid, hmin⟩ := valid_of_inputs hinputs
    obtain ⟨visited, waves, -, hdelivers⟩ := delivers_generate hhost hvalid hmin htop
    have hread := (onlyRead_inputs hhost words m).1
    rw [run_eq, run_bind_ok hinputs]
    rw [hinputs] at hread
    refine (hdelivers m' ?_).sound
    rw [hread]
    exact ih
  | visit _ hhost hs hroot hin ih => exact (delivers_visit hhost hs ih hroot hin).sound
  | elsewhere _ hview ih =>
    rw [hview]
    exact ih

/-- What a run wrote: the subtrees of the tiles that it visited, which are the wanted rank roots, and
a manifest. -/
structure Complete (s : Schedule) (E : Node → Bool) (top : Path) (files : Files)
    (writes : List (Path × ByteArray)) (visited : List Tile) : Prop where
  /-- No rank root is visited twice. -/
  nodup : visited.Nodup
  /-- The root and the rank roots below which something exists are visited, and no others. -/
  mem_iff : ∀ t, t ∈ visited ↔ Wanted s E t
  /-- One file is written for each visit, into the directory of subtrees. -/
  writes_eq : writes = visited.map fun t => (subtreePath top t, freshBytes s E t)
  path_injective : ∀ t t', subtreePath top t = subtreePath top t' → t = t'
  /-- The file of a tile holds what the store answers. -/
  file : ∀ t ∈ visited, fresh s E t = .ok (freshBytes s E t) ∧
    Subtree.decode (freshBytes s E t) s.subtreeLevels = .ok (freshSubtree s E t) ∧
    ∃ names, subtreePath top t = top.under names ∧ files names = some (freshBytes s E t)
  /-- No child subtree is missing. -/
  child : ∀ t ∈ visited, ∀ i, ((freshSubtree s E t).children.row 0).get i = true →
    ∃ u ∈ visited, IsChildRoot s t i u
  /-- Every subtree but that of the root is the child of one. -/
  parent : ∀ u ∈ visited, u ≠ ⟨0, 0, 0⟩ → ∃! p : Tile × Nat, p.1 ∈ visited ∧
    ((freshSubtree s E p.1).children.row 0).get p.2 = true ∧ IsChildRoot s p.1 p.2 u
  /-- The manifest counts the files, their bytes and the ranks that they are of. -/
  manifest : ∃ last nanoseconds,
    IsGreatest {k | ∃ t ∈ visited, t.level = k * s.subtreeLevels} last ∧
      files ["manifest.json"] = some (manifestBytes s E visited (last + 1) nanoseconds)

/-- A walk over all ranks that wrote what it visited is complete. -/
theorem IsWalk.complete {s : Schedule} {E : Node → Bool} {m m' : Recorded σ} (hs : s.Valid)
    (hmin : s.minLevel = 0) {visited : List Tile} {waves nanoseconds : Nat}
    (hwalk : IsWalk s E 0 visited waves) (hwrote : Wrote s E top view visited m m')
    (hbefore : m.writesIn (top.child "subtrees") = [])
    (hmanifest : view m'.state ["manifest.json"] =
      some (manifestBytes s E visited waves nanoseconds)) :
    Complete s E top (view m'.state) (m'.writesIn (top.child "subtrees")) visited := by
  have hmem (t : Tile) : t ∈ visited ↔ Wanted s E t := by
    rw [hwalk.mem_iff, Nat.zero_mul]
    exact and_iff_left (Nat.zero_le _)
  have hbuilt {t : Tile} (ht : Wanted s E t) :
      IsBuilt s E t.level t.morton.toNat s.subtreeLevels (freshSubtree s E t) :=
    isBuilt_freshSubtree hs (ht.isRankRoot hmin).1 (ht.isRankRoot hmin).2
  refine ⟨hwalk.nodup, hmem, ?_, fun _ _ => subtreePath_injective, ?_, ?_, ?_, ?_⟩
  · rw [hwrote.writes, hbefore, List.nil_append]
  · intro t ht
    obtain ⟨hroot, hin⟩ := ((hmem t).1 ht).isRankRoot hmin
    have hanswer := isAnswer_freshBytes (E := E) hs hroot hin
    exact ⟨hanswer.fresh_eq hs, hanswer.decode_eq hs, subtreeNames t, subtreePath_eq top t,
      hwrote.written t ht⟩
  · intro t ht i hi
    have ht := (hmem t).1 ht
    have hlt : i < 4 ^ s.subtreeLevels := (hbuilt ht).levels_eq ▸ Subtree.lt_of_get_child hi
    have hnext : t.level < s.maxRankRoot := (((hbuilt ht).child i hlt).1 hi).1
    have hroots := hs.maxRankRoot_add
    have hmax := hs.max_lt
    have hchild := isChildRoot_descendant (s := s) (t := t) (by omega) hlt
    exact ⟨_, (hmem _).2 ((ht.get_child_iff hs hmin (hbuilt ht) hchild).1 hi), hchild⟩
  · intro u hu hne
    have hu := (hmem u).1 hu
    obtain ⟨t, i, ht, hi⟩ := hu.exists_parent hs hmin (hu.level_pos hne)
    refine ⟨(t, i), ⟨(hmem t).2 ht, (ht.get_child_iff hs hmin (hbuilt ht) hi).2 hu, hi⟩, ?_⟩
    rintro ⟨t', i'⟩ ⟨ht', -, hi'⟩
    obtain ⟨rfl, rfl⟩ := hi'.parent_unique (((hmem t').1 ht').isRankRoot hmin).2
      (ht.isRankRoot hmin).2 hi
    rfl
  · have hrank (j : Nat) : j < waves ↔ ∃ t ∈ visited, t.level = j * s.subtreeLevels := by
      rw [hwalk.lt_waves_iff, Nat.zero_add]
    have hpos : 0 < waves :=
      (hrank 0).2 ⟨⟨0, 0, 0⟩, (hmem _).2 (.inl rfl), (Nat.zero_mul _).symm⟩
    obtain ⟨last, rfl⟩ : ∃ last, waves = last + 1 := Nat.exists_eq_succ_of_ne_zero hpos.ne'
    refine ⟨last, nanoseconds, ⟨(hrank last).1 (Nat.lt_succ_self last), fun k hk => ?_⟩, hmanifest⟩
    exact Nat.le_of_lt_succ ((hrank k).2 hk)

/-- **The output of a run is complete.** Whatever earlier runs left, a run in which no file operation
fails ends well, and writes the subtrees of the wanted rank roots and of no others. -/
theorem run_complete (hhost : host.Lawful top view) {words : List String} {c : σ} {x : Inputs}
    {m : Recorded σ} (hinputs : (inputs host.recorded words).run.run ⟨c, []⟩ = (.ok x, m))
    (htop : Path.ofText x.options.output = top)
    (hleft : Left x.schedule x.footprints top view ⟨c, []⟩)
    (hsmooth : Smooth ((run host.recorded words).run.run ⟨c, []⟩).2) :
    ((run host.recorded words).run.run ⟨c, []⟩).1 = .ok () ∧
      ∃ visited, Complete x.schedule (touched x.footprints) top
        (view ((run host.recorded words).run.run ⟨c, []⟩).2.state)
        (((run host.recorded words).run.run ⟨c, []⟩).2.writesIn (top.child "subtrees"))
        visited := by
  obtain ⟨hs, hmin⟩ := valid_of_inputs hinputs
  obtain ⟨hview, hwrites⟩ := onlyRead_inputs hhost words ⟨c, []⟩
  rw [hinputs] at hview hwrites
  obtain ⟨visited, waves, hwalk, hdelivers⟩ := delivers_generate hhost hs hmin htop
  have hsound : CacheSound x.schedule (touched x.footprints) (view m.state) := by
    rw [hview]
    exact hleft.cacheSound
  rw [run_eq, run_bind_ok hinputs] at hsmooth ⊢
  obtain ⟨_, hok, hwrote, nanoseconds, hmanifest⟩ := (hdelivers m hsound).exists_ok hsmooth
  exact ⟨hok, visited, hwalk.complete hs hmin hwrote hwrites hmanifest⟩

/-! ## Tables -/

section

variable {s : Schedule} {index : Footprints} {m : Recorded FileTable} {t : Tile} (hs : s.Valid)
  (hleft : Left s index top (FileTable.below top) m) (hroot : s.isRankRoot t.level = true)
  (hin : inLevel t = true)

include hs hleft hroot hin

theorem left_visitTable : Left s index top (FileTable.below top) (visitTable s index top t m) :=
  hleft.visit (tableHost_lawful top) hs hroot hin

theorem wrote_visitTable (hm : Smooth m) :
    Wrote s (touched index) top (FileTable.below top) [t] m (visitTable s index top t m) := by
  have hdelivers := delivers_visit (tableHost_lawful top) hs hleft.cacheSound hroot hin
  obtain ⟨-, -, hwrote, -⟩ := hdelivers.exists_ok (smooth_visitTable hm)
  exact hwrote

end

/-! ## Two ranks -/

/-- A box north of the equator, on both sides of the meridian. -/
def northernBox : Footprints :=
  ⟨#[⟨-1, 1, 10, 11⟩]⟩

/-- The text `[[-1,10,1,11]]` in a file beside others. -/
def withNorthernBox (t : FileTable) : FileTable :=
  Function.update t (.ofText "boxes.json") (some (Octets.pack
    [0x5b, 0x5b, 0x2d, 0x31, 0x2c, 0x31, 0x30, 0x2c, 0x31, 0x2c, 0x31, 0x31, 0x5d, 0x5d]))

/-- Two ranks of one level each. -/
def twoRanks : Schedule where
  maxLevel := 1
  subtreeLevels := 1

def twoRankWords : List String :=
  ["--footprints", "boxes.json", "--output", "tiles", "--max-level", "1", "--subtree-levels", "1"]

theorem inputs_withNorthernBox (t : FileTable) : ∃ x m,
    (inputs tableHost.recorded twoRankWords).run.run ⟨withNorthernBox t, []⟩ = (.ok x, m) ∧
      x.schedule = twoRanks ∧ x.footprints = northernBox ∧ x.options.output = "tiles" :=
  ⟨_, _, rfl, rfl, rfl, rfl⟩

theorem below_withNorthernBox (t : FileTable) :
    FileTable.below (.ofText "tiles") (withNorthernBox t) =
      FileTable.below (.ofText "tiles") t := by
  funext names
  have hne : (Path.ofText "tiles").under names ≠ .ofText "boxes.json" :=
    fun h => absurd (congrArg Path.root h) (by decide : "tiles" ≠ "boxes.json")
  unfold FileTable.below withNorthernBox
  exact Function.update_of_ne hne _ _

theorem valid_twoRanks : twoRanks.Valid := by
  constructor <;> decide

/-- The root and the two rank roots that the box touches. -/
theorem wanted_northernBox_iff (t : Tile) : Wanted twoRanks (touched northernBox) t ↔
    t = ⟨0, 0, 0⟩ ∨ t = ⟨1, 0, 1⟩ ∨ t = ⟨1, 1, 1⟩ := by
  have hbit (x : UInt32) (hx : x.toNat < 2 ^ 1) : x = 0 ∨ x = 1 := by
    rcases Nat.lt_succ_iff_lt_or_eq.1 hx with hx | hx
    · exact .inl (UInt32.toNat_inj.1 (Nat.lt_one_iff.1 hx))
    · exact .inr (UInt32.toNat_inj.1 hx)
  constructor
  · obtain ⟨level, x, y⟩ := t
    rintro (hroot | ⟨hpos, hroot, hin, hoccupied⟩)
    · exact .inl hroot
    · have hle : level ≤ 1 := valid_twoRanks.le_maxRankRoot hroot
      obtain rfl : level = 1 := Nat.le_antisymm hle hpos
      obtain ⟨hx, hy⟩ := inLevel_eq_true_iff.1 hin
      obtain rfl | rfl := hbit x hx <;> obtain rfl | rfl := hbit y hy
      · exact absurd hoccupied (by decide +kernel)
      · exact .inr (.inl rfl)
      · exact absurd hoccupied (by decide +kernel)
      · exact .inr (.inr rfl)
  · rintro (rfl | rfl | rfl)
    · exact .inl rfl
    · exact .inr ⟨by decide, by decide, by decide, by decide +kernel⟩
    · exact .inr ⟨by decide, by decide, by decide, by decide +kernel⟩

/-- What is left of a run that was stopped when the later of the two rank roots below the root had
been visited and the earlier one had not. -/
def stopped : Recorded FileTable :=
  visitTable twoRanks northernBox (.ofText "tiles") ⟨1, 1, 1⟩
    (visitTable twoRanks northernBox (.ofText "tiles") ⟨0, 0, 0⟩ ⟨fun _ => none, []⟩)

theorem left_wrote_stopped :
    Left twoRanks northernBox (.ofText "tiles") (FileTable.below (.ofText "tiles")) stopped ∧
      Wrote twoRanks (touched northernBox) (.ofText "tiles") (FileTable.below (.ofText "tiles"))
        [⟨0, 0, 0⟩, ⟨1, 1, 1⟩] ⟨fun _ => none, []⟩ stopped := by
  have hnone : Left twoRanks northernBox (.ofText "tiles") (FileTable.below (.ofText "tiles"))
      ⟨fun _ => none, []⟩ := .empty _ fun _ => rfl
  have hsmooth : Smooth (⟨fun _ => none, []⟩ : Recorded FileTable) := fun _ h => nomatch h
  have hroot : twoRanks.isRankRoot (Tile.level ⟨0, 0, 0⟩) = true := by decide
  have hbelow : twoRanks.isRankRoot (Tile.level ⟨1, 1, 1⟩) = true := by decide
  have hfirst := left_visitTable valid_twoRanks hnone hroot (by decide)
  exact ⟨left_visitTable valid_twoRanks hfirst hbelow (by decide),
    (wrote_visitTable valid_twoRanks hnone hroot (by decide) hsmooth).trans
      (wrote_visitTable valid_twoRanks hfirst hbelow (by decide) (smooth_visitTable hsmooth))⟩

/-- A run goes on from what a stopped one left: it writes the root's subtree, which points to two
rank roots, and in a second wave theirs. -/
theorem run_complete_two_ranks : ∃ (final : Recorded FileTable) (visited : List Tile),
    FileTable.below (.ofText "tiles") (withNorthernBox stopped.state) (subtreeNames ⟨1, 0, 1⟩) =
      none ∧
    FileTable.below (.ofText "tiles") (withNorthernBox stopped.state) (subtreeNames ⟨1, 1, 1⟩) =
      some (freshBytes twoRanks (touched northernBox) ⟨1, 1, 1⟩) ∧
    (run tableHost.recorded twoRankWords).run.run ⟨withNorthernBox stopped.state, []⟩ =
      (.ok (), final) ∧
    Complete twoRanks (touched northernBox) (.ofText "tiles")
      (FileTable.below (.ofText "tiles") final.state)
      (final.writesIn ((Path.ofText "tiles").child "subtrees")) visited ∧
    (∀ t, t ∈ visited ↔ t = ⟨0, 0, 0⟩ ∨ t = ⟨1, 0, 1⟩ ∨ t = ⟨1, 1, 1⟩) ∧
    ((freshSubtree twoRanks (touched northernBox) ⟨0, 0, 0⟩).children.row 0).get 2 = true ∧
    final.state (subtreePath (.ofText "tiles") ⟨1, 0, 1⟩) =
      some (freshBytes twoRanks (touched northernBox) ⟨1, 0, 1⟩) ∧
    ∃ nanoseconds, final.state ((Path.ofText "tiles").child "manifest.json") =
      some (manifestBytes twoRanks (touched northernBox) visited 2 nanoseconds) := by
  obtain ⟨x, m, hinputs, hs, hindex, houtput⟩ := inputs_withNorthernBox stopped.state
  have hbefore := below_withNorthernBox stopped.state
  have hleft : Left x.schedule x.footprints (.ofText "tiles") (FileTable.below (.ofText "tiles"))
      ⟨withNorthernBox stopped.state, []⟩ := by
    rw [hs, hindex]
    exact left_wrote_stopped.1.elsewhere hbefore
  obtain ⟨hok, visited, hcomplete⟩ := run_complete (tableHost_lawful (.ofText "tiles")) hinputs
    (congrArg Path.ofText houtput) hleft (smooth_run_table _ _)
  obtain ⟨final, hfinal⟩ : ∃ final : Recorded FileTable, (run tableHost.recorded
      twoRankWords).run.run ⟨withNorthernBox stopped.state, []⟩ = (.ok (), final) :=
    ⟨_, Prod.fst_eq_iff.1 hok⟩
  rw [hs, hindex, hfinal] at hcomplete
  have hmem (t : Tile) := (hcomplete.mem_iff t).trans (wanted_northernBox_iff t)
  have hwest : ⟨1, 0, 1⟩ ∈ visited := (hmem _).2 (.inr (.inl rfl))
  refine ⟨final, visited, ?_, ?_, hfinal, hcomplete, hmem, ?_, ?_, ?_⟩
  · rw [hbefore, left_wrote_stopped.2.others ⟨1, 0, 1⟩ (by decide)]
    rfl
  · rw [hbefore, left_wrote_stopped.2.written ⟨1, 1, 1⟩ (by decide)]
  · obtain ⟨⟨t, i⟩, ⟨ht, hbit, hchild⟩, -⟩ := hcomplete.parent _ hwest (by decide)
    have hlevel : 1 = t.level + 1 := hchild.level
    obtain rfl | rfl | rfl := (hmem t).1 ht
    · obtain rfl : i = 2 := by
        have hmorton := hchild.morton
        rw [show (Tile.morton ⟨1, 0, 1⟩).toNat = 2 by decide,
          show (Tile.morton ⟨0, 0, 0⟩).toNat = 0 by decide, Nat.mul_zero, Nat.zero_add] at hmorton
        exact hmorton.symm
      exact hbit
    · cases hlevel
    · cases hlevel
  · obtain ⟨-, -, names, hnames, hfile⟩ := hcomplete.file _ hwest
    rw [hnames]
    exact hfile
  · obtain ⟨last, nanoseconds, ⟨⟨t, ht, hlevel⟩, hgreatest⟩, hmanifest⟩ := hcomplete.manifest
    have hge : 1 ≤ last := hgreatest ⟨⟨1, 0, 1⟩, hwest, rfl⟩
    have hle : last ≤ 1 := by
      rw [show last = t.level from (Nat.mul_one last).symm.trans hlevel.symm]
      obtain rfl | rfl | rfl := (hmem t).1 ht <;> decide
    obtain rfl : last = 1 := Nat.le_antisymm hle hge
    exact ⟨nanoseconds, hmanifest⟩

end ImplicitTiling.Generator
