import ImplicitTiling.Files.System
import Std.Data.HashMap

/-!
# A tree of files as a value

Files and directories by the names that lead to them from the root of the tree. A path is followed
step by step, and every step starts at a directory: a missing name ends the way, and so does a file
from which it goes on.
-/

namespace ImplicitTiling

/-- What a path leads to. -/
inductive FileEntry where
  | file (bytes : ByteArray)
  | directory
  deriving DecidableEq

/-- Files and directories by their names. -/
structure FileTree where
  entries : Std.HashMap (List String) FileEntry := {}
  /-- The names that lead to the working directory, which is always there with all above it. -/
  home : List String := []
  /-- The most bytes that a name may have; `none` where names may have any length. -/
  longestName : Option Nat := none

namespace FileTree

/-- What stands under some names. -/
def entry? (t : FileTree) (names : List String) : Option FileEntry :=
  if names.isPrefixOf t.home then some .directory else t.entries[names]?

/-- Whether a name is too long. -/
def isTooLong (t : FileTree) (name : String) : Bool :=
  t.longestName.any (· < name.utf8ByteSize)

/-- What a directory lists under a name. -/
def lookUp (t : FileTree) (here : List String) (name : String) :
    Except FileError (Option FileEntry) :=
  if t.isTooLong name then .error .nameTooLong else .ok (t.entry? (here ++ [name]))

/-- Puts an entry in place of any under the same names. -/
def place (t : FileTree) (names : List String) (e : FileEntry) : FileTree :=
  { t with entries := t.entries.insert names e }

/-- Takes out the entry under some names. -/
def takeOut (t : FileTree) (names : List String) : FileTree :=
  { t with entries := t.entries.erase names }

/-! ## Following a path -/

/-- The directory at which a path starts. -/
def start (t : FileTree) (p : Path) : List String :=
  if p.isAbsolute then [] else t.home

/-- What steps lead to from a directory, with the names under which it stands. -/
def follow (t : FileTree) (here : List String) :
    List Step → Except FileError (List String × FileEntry)
  | [] => .ok (here, .directory)
  | .stay :: rest => t.follow here rest
  | .up :: rest => t.follow here.dropLast rest
  | .down name :: rest =>
    match t.lookUp here name with
    | .error e => .error e
    | .ok none => .error .notFound
    | .ok (some .directory) => t.follow (here ++ [name]) rest
    | .ok (some (.file bytes)) =>
      if rest.isEmpty then .ok (here ++ [name], .file bytes) else .error .notADirectory

/-- What a path leads to. The empty path leads nowhere. -/
def find (t : FileTree) (p : Path) : Except FileError (List String × FileEntry) :=
  if p = .ofText "" then .error .notFound else t.follow (t.start p) p.steps

/-- The file that a path leads to. -/
def findFile (t : FileTree) (p : Path) : Except FileError (List String × ByteArray) :=
  match t.find p with
  | .ok (names, .file bytes) => .ok (names, bytes)
  | .ok (_, .directory) => .error .isADirectory
  | .error e => .error e

/-- The directory that steps lead to. -/
def followToDirectory (t : FileTree) (here : List String) (steps : List Step) :
    Except FileError (List String) :=
  match t.follow here steps with
  | .ok (names, .directory) => .ok names
  | .ok (_, .file _) => .error .notADirectory
  | .error e => .error e

/-- The names under which a path lets a file be put: it has to end with a name, in a directory that
is there and lists no directory under that name. -/
def findPlace (t : FileTree) (p : Path) : Except FileError (List String) := do
  let here ← t.followToDirectory (t.start p) p.steps.dropLast
  match p.steps.getLast? with
  | some (.down name) =>
    match ← t.lookUp here name with
    | some .directory => throw .isADirectory
    | _ => return here ++ [name]
  | _ => throw .isADirectory

/-- The bytes of a file. -/
def read (t : FileTree) (p : Path) : Except FileError ByteArray :=
  (t.findFile p).map (·.2)

/-- Whether a path leads to a file or directory. -/
def present (t : FileTree) (p : Path) : Bool :=
  (t.find p).isOk

/-- The files below a directory, by the names that lead to them from there, in no fixed order. -/
def filesBelow (t : FileTree) (directory : List String) : List (List String × ByteArray) :=
  t.entries.toList.filterMap fun (names, e) =>
    match e with
    | .file bytes =>
      if directory.isPrefixOf names && directory.length < names.length then
        some (names.drop directory.length, bytes)
      else none
    | .directory => none

/-! ## Changing the tree -/

/-- An operation that is carried out where a check allows it and else leaves the tree as it is. -/
def change {α : Type} (check : FileTree → Except FileError α)
    (carryOut : α → FileTree → FileTree) : ExceptT FileError (StateM FileTree) Unit :=
  fun t =>
    match check t with
    | .ok a => (.ok (), carryOut a t)
    | .error e => (.error e, t)

/-- Makes a file hold bytes. -/
def write (p : Path) (bytes : ByteArray) : ExceptT FileError (StateM FileTree) Unit :=
  change (·.findPlace p) fun names t => t.place names (.file bytes)

/-- Makes the directories on the way along steps, as far as they are missing. A file on the way ends
it, and the directories that were made before it stay. It is reported as standing in the place of a
directory if the way ends there or some directory before it was `made`, and as no directory
otherwise. -/
def makeAlong (here : List String) (made : Bool) :
    List Step → ExceptT FileError (StateM FileTree) Unit
  | [] => fun t => (.ok (), t)
  | .stay :: rest => makeAlong here made rest
  | .up :: rest => makeAlong here.dropLast made rest
  | .down name :: rest => fun t =>
    match t.lookUp here name with
    | .error e => (.error e, t)
    | .ok none => makeAlong (here ++ [name]) true rest (t.place (here ++ [name]) .directory)
    | .ok (some .directory) => makeAlong (here ++ [name]) made rest t
    | .ok (some (.file _)) =>
      (.error (if made || rest.isEmpty then .alreadyExists else .notADirectory), t)

/-- Makes a directory and all that lead to it. -/
def makeDirectories (p : Path) : ExceptT FileError (StateM FileTree) Unit :=
  fun t => makeAlong (t.start p) false p.steps t

/-- Gives a file another place. -/
def rename (source target : Path) : ExceptT FileError (StateM FileTree) Unit :=
  change
    (fun t => do
      let (names, bytes) ← t.findFile source
      return (names, bytes, ← t.findPlace target))
    fun (names, bytes, target) t => (t.takeOut names).place target (.file bytes)

/-- Removes a file. -/
def remove (p : Path) : ExceptT FileError (StateM FileTree) Unit :=
  change (·.findFile p) fun (names, _) t => t.takeOut names

/-- A tree of files as a file system. -/
def system : FileSystem (StateM FileTree) where
  read p := fun t => (t.read p, t)
  write := write
  makeDirectories := makeDirectories
  rename := rename
  remove := remove
  present p := fun t => (t.present p, t)

end FileTree

end ImplicitTiling
