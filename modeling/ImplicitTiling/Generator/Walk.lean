import ImplicitTiling.Files.System
import ImplicitTiling.Footprints
import ImplicitTiling.Store.Basic
import ImplicitTiling.Store.DiskCache
import ImplicitTiling.Tileset.Basic
import ImplicitTiling.Tileset.Uri

/-!
# The walk over all subtrees

The generator asks the store for the subtree of the root, writes it to a file, and goes on to the
rank roots that it points to, wave after wave, until none is left. Subtrees point only to rank roots
below which something exists, so the walk passes over everything else. The subtrees of one wave go to
different files, and it does not matter in which order they are written.
-/

namespace ImplicitTiling.Generator

/-- What a generator works with. -/
structure Host (m : Type → Type) where
  files : FileSystem m
  /-- Prints a line. -/
  print : String → m Unit
  /-- Adds a line to the journal. -/
  note : Record → m Unit
  /-- Nanoseconds on a clock that only goes forward. -/
  clock : m Nat
  /-- A number that no other generator at work has. -/
  process : Nat

/-- What a walk has written so far. -/
structure Tally where
  subtrees : Nat := 0
  bytes : Nat := 0
  waves : Nat := 0
  deriving DecidableEq, Repr

variable {m : Type → Type} [Monad m]

/-- A file operation of the generator. -/
def fileStep {α : Type} (operation : ExceptT FileError m α) : ExceptT Error m α :=
  operation.adapt .file

/-- Answers the requests of the store. Nobody else is at work in the store, so locks are free. -/
def answer (host : Host m) (index : Footprints) (cache : BlobCache m) :
    (a : Action) → m a.Answer
  | .query n => pure (.ok (index.touches n.degrees))
  | .fetch n => cache.get n
  | .save n blob => cache.put n blob
  | .lock _ => pure ()
  | .unlock _ => pure ()
  | .note r => host.note r

/-- The file of a subtree. -/
def subtreePath (output : Path) (t : Tile) : Path :=
  output.below (Uri.expand ({} : TilesetOptions).subtreeUri t)

/-- The rank roots that the subtree of a tile points to, in Morton order. -/
def childRoots (s : Schedule) (t : Tile) (subtree : Subtree) : List Tile :=
  if s.isRankRoot (t.level + s.subtreeLevels) then
    (subtree.children.row 0).ones.map fun i => (t.node.descendant s.subtreeLevels i).tile
  else []

/-- Writes the subtree of a tile; gives the number of its bytes and the rank roots that it points
to. -/
def visit (host : Host m) (s : Schedule) (index : Footprints) (output : Path) (t : Tile) :
    ExceptT Error m (Nat × List Tile) := do
  let cache := DiskCache.cache host.files (output.child "cache") host.process
  let bytes ← .mk (Routine.run (answer host index cache) (Store.get s t).run)
  let subtree ← .mk (pure (Subtree.decode bytes s.subtreeLevels))
  let path := subtreePath output t
  fileStep (host.files.makeDirectories path.parent)
  fileStep (host.files.write path bytes)
  return (bytes.size, childRoots s t subtree)

/-- Writes the subtrees of one wave; gives the bytes written and the next wave. -/
def visitAll (host : Host m) (s : Schedule) (index : Footprints) (output : Path) :
    List Tile → ExceptT Error m (Nat × List Tile)
  | [] => return (0, [])
  | t :: rest => do
    let (bytes, below) ← visit host s index output t
    let (restBytes, restBelow) ← visitAll host s index output rest
    return (bytes + restBytes, below ++ restBelow)

/-- Writes wave after wave, at most as many as there are ranks left. -/
def walk (host : Host m) (s : Schedule) (index : Footprints) (output : Path) :
    (ranks : Nat) → (wave : List Tile) → Tally → ExceptT Error m Tally
  | 0, _, done => return done
  | ranks + 1, wave, done =>
    match wave with
    | [] => return done
    | t :: _ => do
      host.print s!"  Wave {done.waves}: {wave.length} subtrees at level {t.level}"
      let (bytes, next) ← visitAll host s index output wave
      walk host s index output ranks next
        ⟨done.subtrees + wave.length, done.bytes + bytes, done.waves + 1⟩

end ImplicitTiling.Generator
