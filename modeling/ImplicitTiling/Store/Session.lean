import ImplicitTiling.Store.Cache
import ImplicitTiling.Store.Oracle
import ImplicitTiling.Store.Routine

/-!
# Sessions

A session runs routines one after another against an oracle and a cache. It counts the calls of the
oracle, keeps the state of the cache, and lists what was requested and how it was answered. Nobody
else waits for its locks, so they are always free.
-/

namespace ImplicitTiling

/-- A request with its answer. -/
inductive Event where
  | queried (node : Node) (answer : Except Error Bool)
  | fetched (node : Node) (answer : Except Error (Option ByteArray))
  | saved (node : Node) (blob : ByteArray) (answer : Except Error Unit)
  | noted (record : Record)

/-- A session whose cache has states of type `σ`. -/
structure Session (σ : Type) where
  cache : σ
  /-- The number of queries so far. -/
  calls : Nat := 0
  /-- What happened, the latest event first. -/
  events : List Event := []

namespace Session

variable {σ α : Type}

/-- Answers one request. -/
def answer (oracle : Oracle) (cache : BlobCache (StateM σ)) :
    (a : Action) → StateM (Session σ) a.Answer
  | .query n => fun ⟨c, calls, events⟩ =>
    let found := oracle calls n
    (found, ⟨c, calls + 1, .queried n found :: events⟩)
  | .fetch n => fun ⟨c, calls, events⟩ =>
    let (found, c) := (cache.get n).run c
    (found, ⟨c, calls, .fetched n found :: events⟩)
  | .save n blob => fun ⟨c, calls, events⟩ =>
    let (done, c) := (cache.put n blob).run c
    (done, ⟨c, calls, .saved n blob done :: events⟩)
  | .lock _ => fun s => ((), s)
  | .unlock _ => fun s => ((), s)
  | .note r => fun ⟨c, calls, events⟩ => ((), ⟨c, calls, .noted r :: events⟩)

/-- Runs a routine in a session. -/
def perform (oracle : Oracle) (cache : BlobCache (StateM σ)) (routine : Build α)
    (s : Session σ) : Except Error α × Session σ :=
  (Routine.run (answer oracle cache) routine.run).run s

end Session

end ImplicitTiling
