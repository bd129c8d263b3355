import ImplicitTiling.Tile

/-!
# Locks of rank roots

Whoever builds a rank holds its lock. A lock is a slot that the table lists under the rank root for
as long as someone needs it: a caller looks the slot up or makes a new one, and at the end takes the
rank root out of the table if nobody but the table and itself refers to the slot. A caller that is
broken off drops its slot without looking, so its rank root stays in the table until the next caller
is through.
-/

namespace ImplicitTiling

/-- The slots in use. -/
structure LockTable where
  /-- The slot listed under each rank root. -/
  slots : List (Node × Nat) := []
  /-- The slots that callers refer to, once for each caller. -/
  holders : List Nat := []
  /-- The number of the next new slot. -/
  fresh : Nat := 0
  deriving DecidableEq

namespace LockTable

/-- The number of rank roots in the table. -/
def inFlight (t : LockTable) : Nat :=
  t.slots.length

/-- How often a slot is referred to, by the table and by callers. -/
def references (t : LockTable) (slot : Nat) : Nat :=
  t.slots.countP (·.2 == slot) + t.holders.count slot

/-- Refers to the slot of a rank root, which is made where there is none. -/
def enter (t : LockTable) (n : Node) : Nat × LockTable :=
  match t.slots.lookup n with
  | some slot => (slot, { t with holders := slot :: t.holders })
  | none =>
    (t.fresh, ⟨(n, t.fresh) :: t.slots, t.fresh :: t.holders, t.fresh + 1⟩)

/-- Takes a rank root out of the table if only the table and one caller refer to its slot. -/
def tidy (t : LockTable) (n : Node) (slot : Nat) : LockTable :=
  if t.references slot = 2 then { t with slots := t.slots.filter (·.1 ≠ n) } else t

/-- Gives up one caller's reference. -/
def drop (t : LockTable) (slot : Nat) : LockTable :=
  { t with holders := t.holders.erase slot }

/-- Holds the lock of a rank root while `body` works on the table, on the one thread that uses it.
Where `body` breaks off, the caller does not tidy. -/
def withLock {ε α : Type} (t : LockTable) (n : Node) (body : LockTable → Except ε α × LockTable) :
    Except ε α × LockTable :=
  let (slot, t) := t.enter n
  match body t with
  | (.ok result, t) => (.ok result, (t.tidy n slot).drop slot)
  | (.error cause, t) => (.error cause, t.drop slot)

end LockTable

/-- A call that holds the lock of a rank root while it makes further calls, and then perhaps breaks
off. -/
inductive LockedCall where
  | call (node : Node) (inner : List LockedCall) (breaksOff : Bool)

/-- What a call sees of the table. -/
inductive LockReport where
  /-- The number of rank roots in the table within the call before and after its inner calls, the
  reports of those, and the number behind the call. -/
  | returned (before : Nat) (inner : List LockReport) (after behind : Nat)
  /-- A call that broke off tells only the number behind it. -/
  | brokeOff (behind : Nat)

namespace LockedCall

mutual

/-- Makes a call on the one thread that uses the table, and goes on where it breaks off. -/
def run (t : LockTable) : LockedCall → LockReport × LockTable
  | .call n inner breaksOff =>
    let (result, t) := t.withLock n fun t =>
      let (reports, t') := runAll t inner
      (if breaksOff then .error () else .ok (t.inFlight, reports, t'.inFlight), t')
    match result with
    | .ok (before, reports, after) => (.returned before reports after t.inFlight, t)
    | .error () => (.brokeOff t.inFlight, t)

/-- Makes calls one after another. -/
def runAll (t : LockTable) : List LockedCall → List LockReport × LockTable
  | [] => ([], t)
  | c :: rest =>
    let (report, t) := run t c
    let (reports, t) := runAll t rest
    (report :: reports, t)

end

end LockedCall

end ImplicitTiling
