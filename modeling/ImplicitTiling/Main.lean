import ImplicitTiling.Generator.Run

/-!
# The command line

Runs the generator on the files of the machine. The report goes to standard output and the journal
to standard error.
-/

open ImplicitTiling

namespace ImplicitTiling.Machine

/-- What went wrong with a file. -/
def fileError : IO.Error → FileError
  | .noFileOrDirectory _ _ _ => .notFound
  | .alreadyExists _ _ _ => .alreadyExists
  | .inappropriateType _ _ details => .other details
  | e => .other (toString e)

/-- A file operation of the machine. -/
def attempt {α : Type} (operation : IO α) : ExceptT FileError BaseIO α :=
  .mk do return (← operation.toBaseIO).mapError fileError

/-- The files of the machine. -/
def files : FileSystem BaseIO where
  read p := attempt (IO.FS.readBinFile p.text)
  write p bytes := attempt (IO.FS.writeBinFile p.text bytes)
  makeDirectories p :=
    if p.text.isEmpty then return else attempt (IO.FS.createDirAll p.text)
  rename source target := attempt (IO.FS.rename source.text target.text)
  remove p := attempt (IO.FS.removeFile p.text)
  present p := do
    match ← (IO.FS.realPath p.text).toBaseIO with
    | .ok path => path.pathExists
    | .error _ => return false

/-- Writes a line to a stream, if the stream takes it. -/
def writeLine (stream : BaseIO IO.FS.Stream) (line : String) : BaseIO Unit := do
  let out ← stream
  discard ((do out.putStrLn line; out.flush) : IO Unit).toBaseIO

/-- The machine as surroundings of the generator. -/
def host (process : Nat) : Generator.Host BaseIO where
  files := files
  print := writeLine IO.getStdout
  note r :=
    if r.severity = .debug then return
    else writeLine IO.getStderr s!"[{r.severity.name}] {r.message}"
  clock := IO.monoNanosNow
  process := process

end ImplicitTiling.Machine

/-- Runs the generator with the words of the command line. -/
def main (words : List String) : IO UInt32 := do
  match ← (Generator.run (Machine.host (← IO.monoNanosNow)) words).run with
  | .ok () => return 0
  | .error e =>
    Machine.writeLine IO.getStderr s!"[ERROR] {e.message}"
    return 1
