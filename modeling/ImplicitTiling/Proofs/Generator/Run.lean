import ImplicitTiling.Generator.Run
import ImplicitTiling.Proofs.Files.Table

/-!
# Runs of a generator

A run reads its inputs (`inputs`) and does the rest from there (`generate`). All that it does to the
world it does through its host: it leads from a state to none but those that the host leads to
(`leads_run`), and while it reads its inputs, to none but those that reading leads to
(`leads_inputs`).
-/

namespace ImplicitTiling.Generator

open Recorded

/-! ## Hosts -/

variable {σ : Type}

namespace Host

/-- A host whose file operations are recorded. -/
def recorded (host : Host (StateM σ)) : Host (StateM (Recorded σ)) where
  files := host.files.recorded
  print line := unrecorded (host.print line)
  note r := unrecorded (host.note r)
  clock := unrecorded host.clock
  process := host.process

/-- The operations of a host whose state `c` has the files `view c` below the directory `top`. -/
structure Lawful (host : Host (StateM σ)) (top : Path) (view : σ → Files) : Prop where
  files : host.files.Lawful top view
  view_print : ∀ line c, view ((host.print line).run c).2 = view c
  view_note : ∀ r c, view ((host.note r).run c).2 = view c
  view_clock : ∀ c, view (host.clock.run c).2 = view c

/-- Whatever is asked of the host leads to a state in relation to the one before. -/
structure Leads (R : σ → σ → Prop) (host : Host (StateM σ)) : Prop where
  read : ∀ p, ImplicitTiling.Leads R (host.files.read p).run
  write : ∀ p bytes, ImplicitTiling.Leads R (host.files.write p bytes).run
  makeDirectories : ∀ p, ImplicitTiling.Leads R (host.files.makeDirectories p).run
  rename : ∀ source target, ImplicitTiling.Leads R (host.files.rename source target).run
  remove : ∀ p, ImplicitTiling.Leads R (host.files.remove p).run
  print : ∀ line, ImplicitTiling.Leads R (host.print line)
  note : ∀ r, ImplicitTiling.Leads R (host.note r)
  clock : ImplicitTiling.Leads R host.clock

end Host

/-! ## A run in two parts -/

/-- What a run works with. -/
structure Inputs where
  options : GeneratorOptions
  schedule : Schedule
  tileset : Tileset
  footprints : Footprints

section

variable {m : Type → Type} [Monad m]

/-- Reads what a run works with. -/
def inputs (host : Host m) (words : List String) : ExceptT Error m Inputs := do
  let options ← .mk (pure ((GeneratorOptions.ofWords words).mapError .config))
  let s ← readSchedule host options
  let tileset ← .mk (pure ((Tileset.implicit s {}).mapError .config))
  let content ← readFile host options.footprints
  let index ← .mk (pure (Footprints.ofFile content))
  return ⟨options, s, tileset, index⟩

/-- What a run does with its inputs. -/
def generate (host : Host m) (x : Inputs) : ExceptT Error m Unit := do
  printAll host (opening x.options x.schedule x.footprints)
  let output := Path.ofText x.options.output
  let start ← liftM host.clock
  let done ← walk host x.schedule x.footprints output x.schedule.rankCount
    [⟨x.schedule.minLevel, 0, 0⟩] {}
  let stop ← liftM host.clock
  fileStep (host.files.makeDirectories output)
  fileStep (host.files.write (output.child "tileset.json") (Octets.pack (x.tileset.toText .json)))
  fileStep (host.files.write (output.child "manifest.json")
    (Octets.pack (manifest x.schedule done (stop - start)).pretty))
  printAll host (closing x.options done (stop - start))

theorem run_eq [LawfulMonad m] (host : Host m) (words : List String) :
    run host words = inputs host words >>= generate host := by
  simp only [run, inputs, generate, bind_assoc, pure_bind]

end

/-! ## What a run leads to -/

section

variable {R : σ → σ → Prop} (hrefl : ∀ c, R c c) (htrans : ∀ c c' c'', R c c' → R c' c'' → R c c'')
  {host : Host (StateM σ)} {α : Type}

include hrefl htrans

theorem leads_lift {ε : Type} {action : StateM σ α} (h : Leads R action) :
    Leads R (liftM action : ExceptT ε (StateM σ) α).run :=
  h.bind htrans fun _ => leads_pure hrefl _

theorem leads_fileStep {operation : ExceptT FileError (StateM σ) α} (h : Leads R operation.run) :
    Leads R (fileStep operation).run :=
  h.bind htrans fun _ => leads_pure hrefl _

theorem leads_routine {answer : (a : Action) → StateM σ a.Answer} (h : ∀ a, Leads R (answer a))
    (r : Routine α) : Leads R (r.run answer) := by
  induction r with
  | done a => exact leads_pure hrefl a
  | ask action next ih => exact (h action).bind htrans ih

section

variable (hread : ∀ p, Leads R (host.files.read p).run)

include hread

theorem leads_readFile (path : String) : Leads R (readFile host path).run :=
  leads_lift hrefl htrans (hread (.ofText path))

theorem leads_readSchedule (options : GeneratorOptions) :
    Leads R (readSchedule host options).run := by
  unfold readSchedule
  cases options.config with
  | none =>
    refine Leads.bind_except hrefl htrans (leads_pure hrefl _) fun configured => ?_
    exact Leads.bind_except hrefl htrans (leads_pure hrefl _) fun _ => leads_pure hrefl _
  | some path =>
    refine (leads_readFile hrefl htrans hread path).bind_except hrefl htrans fun content => ?_
    refine Leads.bind_except hrefl htrans (leads_pure hrefl _) fun configured => ?_
    exact Leads.bind_except hrefl htrans (leads_pure hrefl _) fun _ => leads_pure hrefl _

/-- While a run reads its inputs, it does nothing but read. -/
theorem leads_inputs (words : List String) : Leads R (inputs host words).run := by
  unfold inputs
  refine Leads.bind_except hrefl htrans (leads_pure hrefl _) fun options => ?_
  refine (leads_readSchedule hrefl htrans hread options).bind_except hrefl htrans fun s => ?_
  refine Leads.bind_except hrefl htrans (leads_pure hrefl _) fun tileset => ?_
  refine (leads_readFile hrefl htrans hread _).bind_except hrefl htrans fun content => ?_
  exact Leads.bind_except hrefl htrans (leads_pure hrefl _) fun _ => leads_pure hrefl _

end

section

variable (hhost : host.Leads R)

include hhost

theorem leads_loadBlob (base : Path) (n : Node) :
    Leads R (DiskCache.loadBlob host.files base n).run := by
  refine (hhost.read _).bind htrans fun result => ?_
  cases result with
  | ok bytes => exact leads_pure hrefl _
  | error e => cases e <;> exact leads_pure hrefl _

theorem leads_saveBlob (base : Path) (process : Nat) (n : Node) (blob : ByteArray) :
    Leads R (DiskCache.saveBlob host.files base process n blob).run := by
  refine (hhost.makeDirectories _).bind_except hrefl htrans fun _ => ?_
  refine (hhost.write _ _).bind_except hrefl htrans fun _ => ?_
  refine (hhost.rename _ _).tryCatch hrefl htrans fun e => ?_
  refine Leads.bind_except hrefl htrans (leads_lift hrefl htrans (hhost.remove _)) fun _ => ?_
  exact leads_pure hrefl _

theorem leads_answer (index : Footprints) (base : Path) (process : Nat) (a : Action) :
    Leads R (answer host index (DiskCache.cache host.files base process) a) := by
  cases a with
  | query n => exact leads_pure hrefl _
  | fetch n =>
    refine (leads_loadBlob hrefl htrans hhost base n).bind htrans fun result => ?_
    cases result <;> exact leads_pure hrefl _
  | save n blob =>
    refine (leads_saveBlob hrefl htrans hhost base process n blob).bind htrans fun result => ?_
    cases result <;> exact leads_pure hrefl _
  | lock n => exact leads_pure hrefl _
  | unlock n => exact leads_pure hrefl _
  | note r => exact hhost.note r

variable (s : Schedule) (index : Footprints) (output : Path)

theorem leads_visit (t : Tile) : Leads R (visit host s index output t).run := by
  refine Leads.bind_except hrefl htrans (leads_routine hrefl htrans
    (leads_answer hrefl htrans hhost index _ _) _) fun bytes => ?_
  refine Leads.bind_except hrefl htrans (leads_pure hrefl _) fun sub => ?_
  refine (leads_fileStep hrefl htrans (hhost.makeDirectories _)).bind_except hrefl htrans
    fun _ => ?_
  exact (leads_fileStep hrefl htrans (hhost.write _ _)).bind_except hrefl htrans
    fun _ => leads_pure hrefl _

theorem leads_visitAll (wave : List Tile) : Leads R (visitAll host s index output wave).run := by
  induction wave with
  | nil => exact leads_pure hrefl _
  | cons t rest ih =>
    refine (leads_visit hrefl htrans hhost s index output t).bind_except hrefl htrans
      fun result => ?_
    exact ih.bind_except hrefl htrans fun _ => leads_pure hrefl _

theorem leads_walk (ranks : Nat) (wave : List Tile) (done : Tally) :
    Leads R (walk host s index output ranks wave done).run := by
  induction ranks generalizing wave done with
  | zero => exact leads_pure hrefl _
  | succ ranks ih =>
    cases wave with
    | nil => exact leads_pure hrefl _
    | cons t rest =>
      refine (leads_lift hrefl htrans (hhost.print _)).bind_except hrefl htrans fun _ => ?_
      exact (leads_visitAll hrefl htrans hhost s index output _).bind_except hrefl htrans
        fun result => ih _ _

omit s index output

theorem leads_printAll (lines : List String) : Leads R (printAll host lines).run := by
  unfold printAll
  induction lines with
  | nil => exact leads_pure hrefl _
  | cons line rest ih =>
    exact (leads_lift hrefl htrans (hhost.print line)).bind_except hrefl htrans fun _ => ih

theorem leads_generate (x : Inputs) : Leads R (generate host x).run := by
  unfold generate
  refine (leads_printAll hrefl htrans hhost _).bind_except hrefl htrans fun _ => ?_
  refine (leads_lift hrefl htrans hhost.clock).bind_except hrefl htrans fun start => ?_
  refine (leads_walk hrefl htrans hhost _ _ _ _ _ _).bind_except hrefl htrans fun done => ?_
  refine (leads_lift hrefl htrans hhost.clock).bind_except hrefl htrans fun stop => ?_
  refine (leads_fileStep hrefl htrans (hhost.makeDirectories _)).bind_except hrefl htrans
    fun _ => ?_
  refine (leads_fileStep hrefl htrans (hhost.write _ _)).bind_except hrefl htrans fun _ => ?_
  refine (leads_fileStep hrefl htrans (hhost.write _ _)).bind_except hrefl htrans fun _ => ?_
  exact leads_printAll hrefl htrans hhost _

/-- A run does nothing but through its host. -/
theorem leads_run (words : List String) : Leads R (run host words).run := by
  rw [run_eq]
  exact (leads_inputs hrefl htrans hhost.read words).bind_except hrefl htrans
    (leads_generate hrefl htrans hhost)

end

end

/-! ## A host without a machine -/

/-- A host that keeps its files in a table, prints nothing, and has a clock that stands still. -/
def tableHost : Host (StateM FileTable) where
  files := FileTable.system
  print _ := pure ()
  note _ := pure ()
  clock := pure 0
  process := 0

theorem tableHost_lawful (top : Path) : tableHost.Lawful top (FileTable.below top) where
  files := FileTable.lawful top
  view_print _ _ := rfl
  view_note _ _ := rfl
  view_clock _ := rfl

/-- No file operation on a table fails. -/
theorem leads_smooth_table : tableHost.recorded.Leads fun m m' => Smooth m → Smooth m' := by
  have hread (p : Path) (t : FileTable) : (Deed.read p (t.read p)).failed = false := by
    unfold FileTable.read
    cases t p <;> rfl
  constructor
  · exact fun p m hm => smooth_cons.2 ⟨hread p m.state, hm⟩
  · exact fun p bytes m hm => smooth_cons.2 ⟨rfl, hm⟩
  · exact fun p m hm => smooth_cons.2 ⟨rfl, hm⟩
  · exact fun source target m hm => smooth_cons.2 ⟨rfl, hm⟩
  · exact fun p m hm => smooth_cons.2 ⟨rfl, hm⟩
  · exact fun _ m hm => hm
  · exact fun _ m hm => hm
  · exact fun m hm => hm

/-- What a table is after the visit of a tile. -/
def visitTable (s : Schedule) (index : Footprints) (output : Path) (t : Tile)
    (m : Recorded FileTable) : Recorded FileTable :=
  ((visit tableHost.recorded s index output t).run.run m).2

theorem smooth_visitTable {s : Schedule} {index : Footprints} {output : Path} {t : Tile}
    {m : Recorded FileTable} (hm : Smooth m) : Smooth (visitTable s index output t m) :=
  leads_visit (fun _ => id) (fun _ _ _ h h' hm => h' (h hm)) leads_smooth_table s index output t m
    hm

theorem smooth_run_table (words : List String) (t : FileTable) :
    Smooth ((run tableHost.recorded words).run.run ⟨t, []⟩).2 :=
  leads_run (fun _ => id) (fun _ _ _ h h' hm => h' (h hm)) leads_smooth_table words ⟨t, []⟩
    fun _ h => nomatch h

end ImplicitTiling.Generator
