import ImplicitTiling.Error
import ImplicitTiling.Tile

/-!
# Routines

What the store does is written down apart from the oracle that it asks, the cache that it reads and
writes, and the locks that it takes: a routine is either done or makes one request to its
surroundings and goes on with the answer. One routine can therefore be run against any surroundings,
be recorded request by request, and be interleaved with others.
-/

namespace ImplicitTiling

/-- A line of the journal. -/
inductive Record where
  | served (tile : Tile)
  | rebuilding (node : Node) (cause : Error)
  | built (tile : Tile) (tiles content children : Nat)
  | nothingUnderRank (node : Node)
  | nothingUnderTile (node : Node)
  deriving DecidableEq, Repr

/-- How much a line of the journal matters. -/
inductive Severity
  | debug
  | info
  | warning
  deriving DecidableEq, Repr

/-- The name of a severity in the journal. -/
def Severity.name : Severity → String
  | .debug => "DEBUG"
  | .info => "INFO"
  | .warning => "WARN"

/-- A tile as level and coordinates, parted by slashes. -/
def Tile.slashed (t : Tile) : String :=
  s!"{t.level}/{t.x}/{t.y}"

namespace Record

/-- How much a record matters. -/
def severity : Record → Severity
  | .served _ => .debug
  | .rebuilding _ _ => .warning
  | .built _ _ _ _ => .info
  | .nothingUnderRank _ => .debug
  | .nothingUnderTile _ => .debug

/-- The wording of a record. -/
def message : Record → String
  | .served tile => s!"Subtree {tile.slashed} served from cache"
  | .rebuilding node cause =>
    s!"Rebuilding cached subtree {node.index} at level {node.level}: {cause.message}"
  | .built tile tiles content children =>
    s!"Built subtree {tile.slashed} ({tiles} tiles, {content} with content, "
      ++ s!"{children} child subtrees)"
  | .nothingUnderRank node => s!"Nothing under max rank {node.index} at level {node.level}"
  | .nothingUnderTile node => s!"Nothing under tile {node.index} at level {node.level}"

end Record

/-- A request to the surroundings of a routine. -/
inductive Action where
  /-- Ask the oracle whether anything exists in a tile. -/
  | query (node : Node)
  /-- Read the bytes that the cache holds for a rank root. -/
  | fetch (node : Node)
  /-- Make the cache hold bytes for a rank root. -/
  | save (node : Node) (blob : ByteArray)
  /-- Wait for the lock of a rank root and take it. -/
  | lock (node : Node)
  /-- Give a lock back. -/
  | unlock (node : Node)
  /-- Add a line to the journal. -/
  | note (record : Record)

/-- What the surroundings answer a request with. -/
abbrev Action.Answer : Action → Type
  | .query _ => Except Error Bool
  | .fetch _ => Except Error (Option ByteArray)
  | .save _ _ => Except Error Unit
  | .lock _ => Unit
  | .unlock _ => Unit
  | .note _ => Unit

/-- A computation that makes requests to its surroundings. -/
inductive Routine (α : Type) where
  | done (value : α)
  | ask (action : Action) (next : action.Answer → Routine α)

namespace Routine

variable {α β : Type}

/-- Goes on with `f` where `r` is done. -/
def bind (r : Routine α) (f : α → Routine β) : Routine β :=
  match r with
  | .done a => f a
  | .ask action next => .ask action fun answer => (next answer).bind f

instance : Monad Routine where
  pure := .done
  bind := .bind

theorem bind_done (r : Routine α) : r.bind .done = r := by
  induction r with
  | done a => rfl
  | ask action next ih => exact congrArg (ask action) (funext ih)

theorem bind_bind {γ : Type} (r : Routine α) (f : α → Routine β) (g : β → Routine γ) :
    (r.bind f).bind g = r.bind fun a => (f a).bind g := by
  induction r with
  | done a => rfl
  | ask action next ih => exact congrArg (ask action) (funext ih)

instance : LawfulMonad Routine :=
  .mk' Routine bind_done (fun _ _ => rfl) bind_bind

/-- Runs a routine in surroundings that answer every request. -/
def run {m : Type → Type} [Monad m] (answer : (a : Action) → m a.Answer) : Routine α → m α
  | .done a => pure a
  | .ask action next => do run answer (next (← answer action))

end Routine

/-- A routine that may fail. -/
abbrev Build : Type → Type :=
  ExceptT Error Routine

namespace Build

variable {α : Type}

/-- Whether anything exists in a tile. -/
def query (n : Node) : Build Bool :=
  .mk (.ask (.query n) .done)

/-- The bytes that the cache holds for a rank root. -/
def fetch (n : Node) : Build (Option ByteArray) :=
  .mk (.ask (.fetch n) .done)

/-- Makes the cache hold bytes for a rank root. -/
def save (n : Node) (blob : ByteArray) : Build Unit :=
  .mk (.ask (.save n blob) .done)

/-- Adds a line to the journal. -/
def note (r : Record) : Build Unit :=
  .mk (.ask (.note r) fun _ => .done (.ok ()))

/-- Holds the lock of a rank root while `body` runs, and gives it back however `body` ends. -/
def withLock (n : Node) (body : Build α) : Build α :=
  .mk (.ask (.lock n) fun _ =>
    body.run.bind fun result => .ask (.unlock n) fun _ => .done result)

/-- A check of input within a routine. -/
def check (r : Except Precondition α) : Build α :=
  .mk (.done (r.mapError .precondition))

end Build

end ImplicitTiling
