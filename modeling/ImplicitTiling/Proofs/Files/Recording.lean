import ImplicitTiling.Proofs.Files.Laws

/-!
# Recorded file operations

A file system whose operations are recorded does the same as before and keeps a list of them, with
their answers. So it can be said of a run that none of its file operations failed
(`Recorded.Smooth`) and which files of a directory it wrote (`Recorded.writesIn`).

`Leads` says of an action that it only leads to states in a given relation to the one before.
-/

namespace ImplicitTiling

/-! ## One operation after another -/

section

variable {σ ε α β : Type} {operation : ExceptT ε (StateM σ) α} {next : α → ExceptT ε (StateM σ) β}
  {c c' : σ}

theorem run_bind_ok {a : α} (h : operation.run.run c = (.ok a, c')) :
    (operation >>= next).run.run c = (next a).run.run c' := by
  rw [ExceptT.run_bind, StateT.run_bind, h]
  rfl

theorem run_bind_error {e : ε} (h : operation.run.run c = (.error e, c')) :
    (operation >>= next).run.run c = (.error e, c') := by
  rw [ExceptT.run_bind, StateT.run_bind, h]
  rfl

/-- What succeeded did so step by step. -/
theorem exists_of_bind_ok {b : β} (h : (operation >>= next).run.run c = (.ok b, c')) :
    ∃ a c₁, operation.run.run c = (.ok a, c₁) ∧ (next a).run.run c₁ = (.ok b, c') := by
  cases hr : operation.run.run c with
  | mk result c₁ =>
    cases result with
    | ok a =>
      rw [run_bind_ok hr] at h
      exact ⟨a, c₁, rfl, h⟩
    | error e =>
      rw [run_bind_error hr] at h
      cases h

/-- What follows matters only for the values that the operation can end with. -/
theorem bind_congr_of_ok {next' : α → ExceptT ε (StateM σ) β}
    (h : ∀ c a c', operation.run.run c = (.ok a, c') → next a = next' a) :
    operation >>= next = operation >>= next' := by
  funext c
  show (operation >>= next).run.run c = (operation >>= next').run.run c
  cases hr : operation.run.run c with
  | mk result c' =>
    cases result with
    | ok a => rw [run_bind_ok hr, run_bind_ok hr, h c a c' hr]
    | error e => rw [run_bind_error hr, run_bind_error hr]

end

/-! ## What an action leads to -/

/-- However the action ends, it leads to a state that is in relation to the one before. -/
def Leads {σ α : Type} (R : σ → σ → Prop) (action : StateM σ α) : Prop :=
  ∀ c, R c (action.run c).2

section

variable {σ ε α β : Type} {R : σ → σ → Prop} (hrefl : ∀ c, R c c)
  (htrans : ∀ c c' c'', R c c' → R c' c'' → R c c'')

include hrefl in
theorem leads_pure (a : α) : Leads R (pure a) :=
  hrefl

include htrans in
theorem Leads.bind {action : StateM σ α} {next : α → StateM σ β} (h : Leads R action)
    (hnext : ∀ a, Leads R (next a)) : Leads R (action >>= next) :=
  fun c => htrans c _ _ (h c) (hnext _ _)

include hrefl htrans

theorem Leads.bind_except {operation : ExceptT ε (StateM σ) α}
    {next : α → ExceptT ε (StateM σ) β} (h : Leads R operation.run)
    (hnext : ∀ a, Leads R (next a).run) : Leads R (operation >>= next).run := by
  rw [ExceptT.run_bind]
  refine h.bind htrans fun result => ?_
  cases result with
  | ok a => exact hnext a
  | error e => exact leads_pure hrefl _

theorem Leads.tryCatch {operation : ExceptT ε (StateM σ) α}
    {handle : ε → ExceptT ε (StateM σ) α} (h : Leads R operation.run)
    (hhandle : ∀ e, Leads R (handle e).run) : Leads R (tryCatch operation handle).run := by
  rw [ExceptT.run_tryCatch]
  refine h.bind htrans fun result => ?_
  cases result with
  | ok a => exact leads_pure hrefl _
  | error e => exact hhandle e

end

/-! ## Records -/

/-- A file operation and how it ended. -/
inductive Deed where
  | read (path : Path) (answer : Except FileError ByteArray)
  | write (path : Path) (bytes : ByteArray) (answer : Except FileError Unit)
  | makeDirectories (path : Path) (answer : Except FileError Unit)
  | rename (source target : Path) (answer : Except FileError Unit)
  | remove (path : Path) (answer : Except FileError Unit)

namespace Deed

/-- Whether the operation failed. To find that a file is not there is an answer and no failure. -/
def failed : Deed → Bool
  | .read _ (.error e) => e ≠ .notFound
  | .read _ (.ok _) => false
  | .write _ _ answer => !answer.isOk
  | .makeDirectories _ answer => !answer.isOk
  | .rename _ _ answer => !answer.isOk
  | .remove _ answer => !answer.isOk

/-- The file of a directory that the operation wrote, with what was to be its bytes. -/
def writeIn? (directory : Path) : Deed → Option (Path × ByteArray)
  | .write path bytes _ => if path.parent = directory then some (path, bytes) else none
  | _ => none

end Deed

/-- A state and the file operations that led to it, the latest first. -/
structure Recorded (σ : Type) where
  state : σ
  deeds : List Deed := []

namespace Recorded

variable {σ α : Type}

/-- No file operation failed. -/
def Smooth (m : Recorded σ) : Prop :=
  ∀ deed ∈ m.deeds, deed.failed = false

/-- The writes to the files of a directory, the earliest first. -/
def writesIn (directory : Path) (m : Recorded σ) : List (Path × ByteArray) :=
  m.deeds.reverse.filterMap (Deed.writeIn? directory)

theorem smooth_cons {c : σ} {deed : Deed} {deeds : List Deed} :
    Smooth ⟨c, deed :: deeds⟩ ↔ deed.failed = false ∧ Smooth (⟨c, deeds⟩ : Recorded σ) :=
  List.forall_mem_cons

theorem writesIn_cons (directory : Path) (c : σ) (deed : Deed) (deeds : List Deed) :
    writesIn directory (⟨c, deed :: deeds⟩ : Recorded σ) =
      writesIn directory (⟨c, deeds⟩ : Recorded σ) ++ (deed.writeIn? directory).toList := by
  unfold writesIn
  rw [List.reverse_cons, List.filterMap_append]
  cases h : deed.writeIn? directory <;> simp [h]

/-- A file operation that is recorded. -/
def recording (operation : ExceptT FileError (StateM σ) α) (deed : Except FileError α → Deed) :
    ExceptT FileError (StateM (Recorded σ)) α :=
  .mk fun m =>
    let r := operation.run.run m.state
    (r.1, ⟨r.2, deed r.1 :: m.deeds⟩)

theorem run_recording (operation : ExceptT FileError (StateM σ) α)
    (deed : Except FileError α → Deed) (m : Recorded σ) :
    (recording operation deed).run.run m =
      ((operation.run.run m.state).1,
        ⟨(operation.run.run m.state).2, deed (operation.run.run m.state).1 :: m.deeds⟩) :=
  rfl

/-- What is no file operation is not recorded. -/
def unrecorded (action : StateM σ α) : StateM (Recorded σ) α :=
  fun m =>
    let r := action.run m.state
    (r.1, ⟨r.2, m.deeds⟩)

end Recorded

open Recorded

variable {σ : Type}

/-- A file system whose operations are recorded. -/
def FileSystem.recorded (files : FileSystem (StateM σ)) : FileSystem (StateM (Recorded σ)) where
  read p := recording (files.read p) (.read p)
  write p bytes := recording (files.write p bytes) (.write p bytes)
  makeDirectories p := recording (files.makeDirectories p) (.makeDirectories p)
  rename source target := recording (files.rename source target) (.rename source target)
  remove p := recording (files.remove p) (.remove p)
  present p := unrecorded (files.present p)

theorem FileSystem.recorded_read (files : FileSystem (StateM σ)) (p : Path) :
    files.recorded.read p = recording (files.read p) (.read p) :=
  rfl

end ImplicitTiling
