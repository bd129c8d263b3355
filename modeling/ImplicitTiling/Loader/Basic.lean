import ImplicitTiling.Error
import ImplicitTiling.Tile

/-!
# The loader

A loader builds subtrees in the background, so many at a time. It has an owner, who asks for tiles and
collects results, and a worker, and the two share nothing but a channel of requests and a channel of
results. The worker takes requests from their channel into a queue, starts the waiting request of the
highest priority whenever one of its places is free, and sends the result of each task that ends. A
task ends with its build, or earlier if its time is up: its place is free then, although the build
goes on.

The owner knows the tiles that are pending. A result tells its tile and not which of several requests
for the tile it answers, and it takes the tile out of those pending.
-/

namespace ImplicitTiling

/-- A request for the subtree of a tile. The ticket tells requests for the same tile apart. -/
structure LoadRequest where
  ticket : Nat
  tile : Tile
  priority : Float32
  deriving DecidableEq

/-- How a task ends. -/
inductive LoadOutcome where
  | loaded (blob : ByteArray)
  | timedOut
  | failed (cause : Error)
  deriving DecidableEq

/-- What the owner of a loader gets for a request. -/
structure LoadResult where
  ticket : Nat
  tile : Tile
  outcome : LoadOutcome
  deriving DecidableEq

/-- How a task ends whose build ends with `built`. -/
def LoadOutcome.ofBuild : Except Error ByteArray → LoadOutcome
  | .ok blob => .loaded blob
  | .error cause => .failed cause

/-- A loader between two steps of its owner and its worker. -/
structure Loader where
  /-- The number of tasks that may be active at the same time, where 0 counts as 1. -/
  maxConcurrent : Nat := 4
  /-- The tiles that the owner waits for. -/
  pending : List Tile := []
  /-- The requests on their way to the worker, the oldest first. -/
  requests : List LoadRequest := []
  /-- The requests that wait with the worker. -/
  queue : List LoadRequest := []
  /-- The tasks, in the order of their starts. -/
  active : List LoadRequest := []
  /-- The builds that have started and not ended. -/
  building : List LoadRequest := []
  /-- The results on their way to the owner, the oldest first. -/
  results : List LoadResult := []
  /-- The ticket of the next request. -/
  nextTicket : Nat := 0
  deriving DecidableEq

namespace Loader

/-! ## The owner -/

/-- Whether a tile is waited for. -/
def isPending (l : Loader) (t : Tile) : Bool :=
  l.pending.contains t

/-- The number of tiles that are waited for. -/
def pendingCount (l : Loader) : Nat :=
  l.pending.length

/-- Asks for a tile, unless it is pending. Tells whether the request was made. -/
def request (l : Loader) (t : Tile) (priority : Float32) : Bool × Loader :=
  if l.isPending t then (false, l)
  else
    (true, { l with
      pending := t :: l.pending
      requests := l.requests ++ [⟨l.nextTicket, t, priority⟩]
      nextTicket := l.nextTicket + 1 })

/-- No longer waits for a tile. Its request goes on. -/
def cancel (l : Loader) (t : Tile) : Loader :=
  { l with pending := l.pending.filter (· ≠ t) }

/-- Collects the oldest result. -/
def nextResult? (l : Loader) : Option (LoadResult × Loader) :=
  match l.results with
  | [] => none
  | r :: rest => some (r, { l.cancel r.tile with results := rest })

/-- Collects all results. -/
def pollResults (l : Loader) : List LoadResult × Loader :=
  (l.results, { l with
    pending := l.pending.filter fun t => l.results.all (·.tile ≠ t)
    results := [] })

/-! ## The worker -/

/-- Requests of a higher priority come first. -/
def comesFirst (a b : LoadRequest) : Bool :=
  !(a.priority < b.priority)

/-- The number of tasks that may be active at the same time. -/
def places (l : Loader) : Nat :=
  max 1 l.maxConcurrent

/-- Starts the first request of the queue in the order of priority; the order of arrival counts
among equals, because sorting is stable. -/
def startNext (l : Loader) : Loader :=
  match l.queue.mergeSort comesFirst with
  | [] => l
  | r :: rest =>
    { l with queue := rest, active := l.active ++ [r], building := l.building ++ [r] }

/-- Starts requests while places are free. -/
def fill (l : Loader) : Loader :=
  (l.places - l.active.length).repeat startNext l

/-- Takes the oldest request from its channel. -/
def receive (l : Loader) : Loader :=
  match l.requests with
  | [] => l
  | r :: rest => fill { l with requests := rest, queue := l.queue ++ [r] }

/-- Ends an active task. -/
def endTask (l : Loader) (ticket : Nat) (outcome : LoadOutcome) : Loader :=
  match l.active.find? (·.ticket == ticket) with
  | none => l
  | some r =>
    fill { l with
      active := l.active.erase r
      results := l.results ++ [⟨ticket, r.tile, outcome⟩] }

/-- Ends the task of a build whose time is up. The build goes on. -/
def giveUp (l : Loader) (ticket : Nat) : Loader :=
  l.endTask ticket .timedOut

/-- Ends a build. Its task, unless that was given up before, has yet to end. -/
def finishBuild (l : Loader) (ticket : Nat) : Loader :=
  { l with building := l.building.filter (·.ticket ≠ ticket) }

/-- Ends a build, and its task unless that was given up before. -/
def endBuild (l : Loader) (ticket : Nat) (built : Except Error ByteArray) : Loader :=
  (l.finishBuild ticket).endTask ticket (.ofBuild built)

/-- Whether the worker has nothing left to do. -/
def isIdle (l : Loader) : Bool :=
  l.requests.isEmpty && l.queue.isEmpty && l.active.isEmpty

end Loader

end ImplicitTiling
