import ImplicitTiling.Compression.Blob
import ImplicitTiling.Files.System
import ImplicitTiling.Store.Cache

/-!
# The disk cache

Every blob has a file of its own, named for its rank root and compressed. It is written under another
name beside that file and then renamed, so nobody sees half of it, and a save that fails leaves the
blob as it was.
-/

namespace ImplicitTiling.DiskCache

/-- The name of the file of a blob, within the directory of its level. -/
def fileName (n : Node) : String :=
  s!"subtree_{n.index}.rks"

/-- The file of a blob. -/
def blobPath (base : Path) (n : Node) : Path :=
  (base.child s!"level_{n.level}").child (fileName n)

/-- The file under which process number `process` writes a blob. -/
def draftPath (base : Path) (process : Nat) (n : Node) : Path :=
  (base.child s!"level_{n.level}").child s!"{fileName n}.{process}.tmp"

variable {m : Type → Type} [Monad m]

/-- Writes a blob. -/
def saveBlob (files : FileSystem m) (base : Path) (process : Nat) (n : Node) (blob : ByteArray) :
    ExceptT FileError m Unit := do
  let path := blobPath base n
  let draft := draftPath base process n
  files.makeDirectories path.parent
  files.write draft (Blob.compress blob)
  tryCatch (files.rename draft path) fun e => do
    let _ ← ExceptT.lift (files.remove draft).run
    throw e

/-- Reads a blob; `none` where there is no file for it. -/
def loadBlob (files : FileSystem m) (base : Path) (n : Node) :
    ExceptT FileError m (Option ByteArray) :=
  .mk do
    match ← (files.read (blobPath base n)).run with
    | .error .notFound => return .ok none
    | .error e => return .error e
    | .ok bytes => return (Blob.decompress bytes).map some

/-- Removes a blob, if there is one. -/
def deleteBlob (files : FileSystem m) (base : Path) (n : Node) : ExceptT FileError m Unit :=
  tryCatch (files.remove (blobPath base n)) fun
    | .notFound => return
    | e => throw e

/-- Whether there is a file for a blob. -/
def blobExists (files : FileSystem m) (base : Path) (n : Node) : m Bool :=
  files.present (blobPath base n)

/-- The files of blobs as a collaborator of the store. -/
def cache (files : FileSystem m) (base : Path) (process : Nat) : BlobCache m where
  get n := do
    match ← (loadBlob files base n).run with
    | .ok found => return .ok found
    | .error e => return .error (.storage (.unreadable (blobPath base n).text e))
  put n blob := do
    match ← (saveBlob files base process n blob).run with
    | .ok () => return .ok ()
    | .error e => return .error (.storage (.unwritable (blobPath base n).text e))

end ImplicitTiling.DiskCache
