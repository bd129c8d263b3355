import ImplicitTiling.Decimal.Rounded
import ImplicitTiling.Generator.Options
import ImplicitTiling.Generator.Walk
import ImplicitTiling.Schedule.Json
import ImplicitTiling.Tileset.Json

/-!
# The generator

A run of the generator reads the rank schedule and the footprints, writes all subtrees, a tileset
that leads to them and a manifest that sums up the run, and reports on its way.
-/

namespace ImplicitTiling.Generator

variable {m : Type → Type} [Monad m]

/-- The contents of a file, or why there are none. -/
def readFile (host : Host m) (path : String) : ExceptT Error m (Except FileError ByteArray) :=
  liftM (host.files.read (.ofText path)).run

/-- The schedule of the configuration file or the default one, with the levels that the options give
instead. The file has to be valid by itself. -/
def readSchedule (host : Host m) (options : GeneratorOptions) : ExceptT Error m Schedule := do
  let configured : Schedule ← match options.config with
    | none => pure {}
    | some path => do
      let content ← readFile host path
      .mk (pure (Schedule.ofFile content))
  let s := { configured with
    maxLevel := options.maxLevel.getD configured.maxLevel
    subtreeLevels := options.subtreeLevels.getD configured.subtreeLevels }
  .mk (pure (s.validate.mapError .config))
  return s

/-- The lines that open the report. -/
def opening (options : GeneratorOptions) (s : Schedule) (index : Footprints) : List String :=
  ["=== Subtree Generator ===",
    s!"Footprints:     {options.footprints} ({index.size} boxes)",
    s!"Levels:         {s.minLevel}..={s.maxLevel}",
    s!"Subtree levels: {s.subtreeLevels} ({s.rankCount} ranks)",
    s!"Jobs:           {options.jobs} parallel",
    s!"Output:         {options.output}",
    ""]

/-- The lines that close the report. -/
def closing (options : GeneratorOptions) (done : Tally) (nanoseconds : Nat) : List String :=
  let seconds := Rounded.tenths nanoseconds (10 ^ 9)
  let kilobytes := Rounded.tenths done.bytes 1024
  ["",
    "=== Generation Complete ===",
    s!"Subtrees: {done.subtrees} in {seconds}s ({kilobytes} KB)",
    s!"Output:   {options.output}"]

/-- The record of a run. -/
def manifest (s : Schedule) (done : Tally) (nanoseconds : Nat) : Json :=
  .record [("max_level", .ofNat s.maxLevel), ("min_level", .ofNat s.minLevel),
    ("seconds", NumberFormat.json.toJson (.ofScientific nanoseconds true 9)),
    ("subtree_count", .ofNat done.subtrees), ("subtree_levels", .ofNat s.subtreeLevels),
    ("total_bytes", .ofNat done.bytes), ("waves", .ofNat done.waves)]

/-- Prints lines. -/
def printAll (host : Host m) (lines : List String) : ExceptT Error m Unit :=
  lines.forM fun line => liftM (host.print line)

/-- Runs the generator. -/
def run (host : Host m) (words : List String) : ExceptT Error m Unit := do
  let options ← .mk (pure ((GeneratorOptions.ofWords words).mapError .config))
  let s ← readSchedule host options
  let tileset ← .mk (pure ((Tileset.implicit s {}).mapError .config))
  let content ← readFile host options.footprints
  let index ← .mk (pure (Footprints.ofFile content))
  printAll host (opening options s index)
  let output := Path.ofText options.output
  let start ← liftM host.clock
  let done ← walk host s index output s.rankCount [⟨s.minLevel, 0, 0⟩] {}
  let stop ← liftM host.clock
  fileStep (host.files.makeDirectories output)
  fileStep (host.files.write (output.child "tileset.json") (Octets.pack (tileset.toText .json)))
  fileStep (host.files.write (output.child "manifest.json")
    (Octets.pack (manifest s done (stop - start)).pretty))
  printAll host (closing options done (stop - start))

end ImplicitTiling.Generator
