import ImplicitTiling.Loader.Basic
import ImplicitTiling.Store.Basic
import ImplicitTiling.Store.Session

/-!
# Runs of a loader

A run of a loader with its store in one session, on a clock of its own. Building takes no time, but
queries may be held up, and a lock may be taken, in which case a build stands. Time passes where the
owner waits, and only then do the builds go on, so a request always arrives before the builds in
front of it have ended.
-/

namespace ImplicitTiling

/-- A build under way. -/
structure RunningBuild where
  ticket : Nat
  /-- The time at which the loader gives up on its task. -/
  due : Option Nat
  /-- The locks that it holds. -/
  held : List Node
  /-- What it has still to do. -/
  rest : Routine (Except Error ByteArray)

/-- A run of a loader between two steps of its owner. -/
structure LoaderRun (σ : Type) where
  loader : Loader
  session : Session σ
  builds : List RunningBuild := []
  /-- Whether queries are held up. -/
  stalled : Bool := false
  /-- Milliseconds since the start. -/
  now : Nat := 0

/-- What a run takes place in. -/
structure LoaderSetting (σ : Type) where
  schedule : Schedule
  oracle : Oracle
  cache : BlobCache (StateM σ)
  /-- Milliseconds after which the loader gives up on a task. -/
  deadline : Option Nat

namespace RunningBuild

/-- Whether a build can make its next request, given the locks that others hold. -/
def mayAsk (stalled : Bool) (taken : List Node) : Action → Bool
  | .query _ => !stalled
  | .lock n => !taken.contains n
  | _ => true

/-- The locks that a build holds after a request. -/
def heldAfter (held : List Node) : Action → List Node
  | .lock n => n :: held
  | .unlock n => held.erase n
  | _ => held

/-- Lets a build go on until it is done or stands. -/
def proceed {σ : Type} (setting : LoaderSetting σ) (stalled : Bool) (taken : List Node) :
    Routine (Except Error ByteArray) → List Node → Session σ →
      (Routine (Except Error ByteArray) × List Node) × Session σ
  | .done result, held, s => ((.done result, held), s)
  | .ask action next, held, s =>
    if mayAsk stalled taken action then
      let (answer, s) := Session.answer setting.oracle setting.cache action s
      proceed setting stalled taken (next answer) (heldAfter held action) s
    else ((.ask action next, held), s)

end RunningBuild

namespace LoaderRun

variable {σ : Type} (setting : LoaderSetting σ)

/-- Sets up the builds that the loader has started. -/
def adopt (r : LoaderRun σ) : LoaderRun σ :=
  let fresh := r.loader.building.filter fun q => r.builds.all (·.ticket ≠ q.ticket)
  { r with
    builds := r.builds ++ fresh.map fun q =>
      ⟨q.ticket, setting.deadline.map (r.now + ·), [], (Store.get setting.schedule q.tile).run⟩ }

/-- Lets one build go on as far as it can. -/
def takeTurn (r : LoaderRun σ) (ticket : Nat) : LoaderRun σ :=
  match r.builds.find? (·.ticket == ticket) with
  | none => r
  | some b =>
    let others := r.builds.filter (·.ticket ≠ ticket)
    let taken := others.flatMap (·.held)
    match RunningBuild.proceed setting r.stalled taken b.rest b.held r.session with
    | ((.done result, _), session) =>
      adopt setting { r with session, builds := others, loader := r.loader.endBuild ticket result }
    | ((rest, held), session) =>
      { r with
        session
        builds := r.builds.map fun c =>
          if c.ticket = ticket then { c with rest, held } else c }

/-- Gives every build a turn. -/
def takeTurns (r : LoaderRun σ) : LoaderRun σ :=
  (r.builds.map (·.ticket)).foldl (takeTurn setting) r

/-- The number of requests with the worker or under way. -/
def workload (r : LoaderRun σ) : Nat :=
  r.loader.queue.length + r.loader.building.length

/-- Lets the builds go on until each is done or stands. The locks that a build waits for lie at ever
deeper levels, so that no more rounds are needed than there are builds and ranks. -/
def settle (r : LoaderRun σ) : LoaderRun σ :=
  (r.workload * (setting.schedule.rankCount + 1)).repeat (takeTurns setting) r

/-- Whether the task of a build is active. -/
def isActive (r : LoaderRun σ) (b : RunningBuild) : Bool :=
  r.loader.active.any (·.ticket == b.ticket)

/-- The earliest time at which the loader gives up on a task. -/
def nextDue? (r : LoaderRun σ) : Option Nat :=
  (r.builds.filterMap fun b => if r.isActive b then b.due else none).min?

/-- Gives up on the tasks whose time is up. -/
def giveUpDue (r : LoaderRun σ) : LoaderRun σ :=
  let overdue := r.builds.filter fun b => r.isActive b && b.due.any (· ≤ r.now)
  adopt setting { r with loader := overdue.foldl (fun l b => l.giveUp b.ticket) r.loader }

/-- Passes the time until the next task is given up, if that is within the limit. -/
def passTime (limit : Option Nat) (r : LoaderRun σ) : LoaderRun σ :=
  match r.nextDue? with
  | none => r
  | some due =>
    if limit.all (due ≤ ·) then
      settle setting (giveUpDue setting { r with now := max r.now due })
    else r

/-! ## Steps of the owner -/

/-- Asks for a tile; the worker takes the request at once. -/
def request (r : LoaderRun σ) (t : Tile) (priority : Float32) : Bool × LoaderRun σ :=
  let (made, loader) := r.loader.request t priority
  (made, adopt setting { r with loader := loader.receive })

/-- No longer waits for a tile. -/
def cancel (r : LoaderRun σ) (t : Tile) : LoaderRun σ :=
  { r with loader := r.loader.cancel t }

/-- Waits for a number of milliseconds. -/
def elapse (r : LoaderRun σ) (duration : Nat) : LoaderRun σ :=
  let stop := r.now + duration
  let r := r.workload.repeat (passTime setting (some stop)) (settle setting r)
  { r with now := stop }

/-- Waits until no task is left and collects the results. -/
def drain (r : LoaderRun σ) : List LoadResult × LoaderRun σ :=
  let r := r.workload.repeat (passTime setting none) (settle setting r)
  let (results, loader) := r.loader.pollResults
  (results, { r with loader })

/-- Holds up queries no longer. -/
def release (r : LoaderRun σ) : LoaderRun σ :=
  { r with stalled := false }

end LoaderRun

end ImplicitTiling
