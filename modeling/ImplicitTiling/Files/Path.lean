/-!
# Paths

A path is the text of a root, as someone gave it, and the names that lead down from there. Followed
step by step, it leads from directory to directory, and a step up leads back from where it is, not
from where the text before it points.
-/

namespace ImplicitTiling

/-- One step on the way along a path. -/
inductive Step where
  /-- Stays at a directory. -/
  | stay
  /-- Goes from a directory to the one that holds it. -/
  | up
  /-- Goes from a directory to what it lists under a name. -/
  | down (name : String)
  deriving DecidableEq, Repr

/-- The step that a part of a path between slashes stands for. -/
def Step.ofPart (part : String) : Step :=
  if part = "" || part = "." then .stay
  else if part = ".." then .up
  else .down part

/-- A file or directory, by the names below a root. -/
structure Path where
  root : String
  names : List String := []
  deriving DecidableEq, Repr

namespace Path

/-- The path of a root itself. -/
def ofText (root : String) : Path :=
  { root }

/-- What lies below a path under a name. -/
def child (p : Path) (name : String) : Path :=
  { p with names := p.names ++ [name] }

/-- The parts of a text between its slashes. -/
def parts (s : String) : List String :=
  (s.toList.splitOn '/').map String.ofList

/-- What lies below a path under names that are parted by slashes. -/
def below (p : Path) (names : String) : Path :=
  { p with names := p.names ++ parts names }

/-- The directory that holds what the path leads to; a root holds itself. -/
def parent (p : Path) : Path :=
  { p with names := p.names.dropLast }

/-- A directory and a name in it, parted by one slash; no slash follows an empty directory or one
that ends in a slash. -/
def joinText (directory name : String) : String :=
  if directory.isEmpty || directory.endsWith "/" then directory ++ name
  else directory ++ "/" ++ name

/-- The text of a path. -/
def text (p : Path) : String :=
  p.names.foldl joinText p.root

/-- Whether the path starts at the root of all files and not at the working directory. -/
def isAbsolute (p : Path) : Bool :=
  p.root.startsWith "/"

/-- The steps of a path, one after another. -/
def steps (p : Path) : List Step :=
  (parts p.root).map .ofPart ++ p.names.map .down

end Path

end ImplicitTiling
