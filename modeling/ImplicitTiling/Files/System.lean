import ImplicitTiling.Error
import ImplicitTiling.Files.Path

/-!
# File systems

The file operations that caches and generators need, over any monad, so that the same code runs on
files and on values.
-/

namespace ImplicitTiling

/-- The operations of a file system. -/
structure FileSystem (m : Type → Type) where
  /-- The bytes of a file. -/
  read : Path → ExceptT FileError m ByteArray
  /-- Makes a file hold bytes, in a directory that is there. -/
  write : Path → ByteArray → ExceptT FileError m Unit
  /-- Makes a directory and all that lead to it, as far as they are missing. -/
  makeDirectories : Path → ExceptT FileError m Unit
  /-- Gives a file another path, in place of any file there. -/
  rename : Path → Path → ExceptT FileError m Unit
  /-- Removes a file. -/
  remove : Path → ExceptT FileError m Unit
  /-- Whether a path leads to a file or directory. -/
  present : Path → m Bool

/-- The same files for computations that do more than use them. -/
def FileSystem.lift {m n : Type → Type} [MonadLiftT m n] (files : FileSystem m) :
    FileSystem n where
  read p := .mk (liftM (files.read p).run)
  write p bytes := .mk (liftM (files.write p bytes).run)
  makeDirectories p := .mk (liftM (files.makeDirectories p).run)
  rename source target := .mk (liftM (files.rename source target).run)
  remove p := .mk (liftM (files.remove p).run)
  present p := liftM (files.present p)

end ImplicitTiling
