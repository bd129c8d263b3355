import ImplicitTiling.Decimal.Layout
import ImplicitTiling.Topology

/-!
# Errors

Every failure is a value that names its cause; the wording is left to one `message` function per
kind. An oracle or a cache that is not part of the library states its failure in its own words, for
which each kind has a constructor `stated`.
-/

namespace ImplicitTiling

/-- Input that an operation cannot take. -/
inductive Precondition where
  | noPyramidLevel
  | pyramidLevelSize (level size expected : Nat)
  | childrenLevels (levels : Nat)
  | childrenLength (length : Nat)
  | bitsetLength (size length : Nat)
  | unbalancedPyramid (length : Nat)
  | leafCount (count : Nat)
  | leafLength (size expected : Nat)
  | partCount (count : Nat)
  | partTopology (found wanted : Topology)
  | partLevels
  | subtreeTopology
  | subtreeLevels (levels tile content : Nat)
  | childSubtreeLength (length expected : Nat)
  | siblingCount (count : Nat)
  | noSiblingLevel
  | siblingLevels
  | decodedLevels (levels : Nat)
  | outsideLevel (level : Nat) (x y : UInt32)
  | stated (text : String)
  deriving DecidableEq, Repr

/-- Bytes that are not an encoded subtree. -/
inductive FormatError where
  | shortHeader (size headerSize : Nat)
  | badMagic (magic : UInt32)
  | unsupportedVersion (version : UInt32)
  | jsonLengthOverflow
  | binaryLengthOverflow
  | shorterThanDeclared (declared size : Nat)
  | invalidJson
  | invalidConstant (constant : Nat)
  | noSource
  | viewOutOfRange (view views : Nat)
  | bufferOutOfRange (buffer : Nat)
  | externalBuffer
  | viewOverflow
  | viewPastBuffer (view stop size : Nat)
  | viewTooShort (view bytes bits : Nat)
  | stated (text : String)
  deriving DecidableEq, Repr

/-- A rank schedule or a request for a tileset that makes no sense. -/
inductive ConfigError where
  | invalidJson
  | noSubtreeLevels
  | subtreeLevelsAbove (levels most : Nat)
  | maxBelowMin (max min : Nat)
  | maxNotBelow (max bound : Nat)
  | minNotMultiple (min levels : Nat)
  | unevenRanks (min max levels : Nat)
  | tilesetStart (min : Nat)
  | footprintsRequired
  | stated (text : String)
  deriving DecidableEq, Repr

/-- What can go wrong with a file. -/
inductive FileError where
  | notFound
  | notADirectory
  | isADirectory
  | alreadyExists
  | nameTooLong
  | invalidData (text : String)
  | other (text : String)
  deriving DecidableEq, Repr

/-- The failure of an oracle, a cache or a loader. -/
inductive StorageError where
  | invalidFootprints
  | invertedFootprint (west south east north : Float)
  | unreadable (path : String) (cause : FileError)
  | unwritable (path : String) (cause : FileError)
  | workerStopped
  | stated (text : String)
  deriving DecidableEq, Repr

/-- The failure of an operation of this library. -/
inductive Error where
  | precondition (cause : Precondition)
  | notRankRoot (level : Nat)
  | format (cause : FormatError)
  | storage (cause : StorageError)
  | config (cause : ConfigError)
  | file (cause : FileError)
  deriving DecidableEq, Repr

/-! ## Wording -/

/-- The wording of a refused input. -/
def Precondition.message : Precondition → String
  | .noPyramidLevel => "pyramid availability needs at least one level"
  | .pyramidLevelSize level size expected =>
    s!"pyramid level {level} has {size} bits, expected {expected}"
  | .childrenLevels levels =>
    s!"children availability must have exactly one level, got {levels}"
  | .childrenLength length => s!"children availability length {length} is not a power of 4"
  | .bitsetLength size length => s!"bitset has {size} bits but availability length is {length}"
  | .unbalancedPyramid length => s!"unbalanced pyramid availability length {length}"
  | .leafCount count => s!"leaf count {count} is not a power of 4"
  | .leafLength size expected => s!"leaf bitset has {size} bits, expected {expected}"
  | .partCount count => s!"concatenation needs exactly 4 availabilities, got {count}"
  | .partTopology found wanted =>
    s!"cannot merge {found.name} availability as {wanted.name}"
  | .partLevels => "availabilities must have the same number of levels"
  | .subtreeTopology =>
    "tile and content availability must be pyramids, child subtree availability flat"
  | .subtreeLevels levels tile content =>
    s!"the number of levels ({levels}) must match the availabilities (tile: {tile}, "
      ++ s!"content: {content})"
  | .childSubtreeLength length expected =>
    s!"child subtree availability has {length} bits, expected {expected}"
  | .siblingCount count => s!"the subtrees array must have exactly 4 elements, got {count}"
  | .noSiblingLevel => "the subtrees must have at least one level"
  | .siblingLevels => "the subtrees must have the same number of levels"
  | .decodedLevels levels => s!"cannot decode a subtree of {levels} levels"
  | .outsideLevel level x y => s!"tile ({x}, {y}) is outside level {level}"
  | .stated text => text

/-- Eight hexadecimal digits. -/
def hexText (w : UInt32) : String :=
  let digits := Nat.toDigits 16 w.toNat
  String.ofList (List.replicate (8 - digits.length) '0' ++ digits)

/-- The wording of a malformed subtree. -/
def FormatError.message : FormatError → String
  | .shortHeader size headerSize =>
    s!"subtree is {size} bytes, shorter than its {headerSize}-byte header"
  | .badMagic magic => "bad magic 0x" ++ hexText magic
  | .unsupportedVersion version => s!"unsupported version {version}"
  | .jsonLengthOverflow => "JSON length overflows"
  | .binaryLengthOverflow => "binary length overflows"
  | .shorterThanDeclared declared size =>
    s!"header declares {declared} bytes but subtree has {size}"
  | .invalidJson => "invalid subtree JSON"
  | .invalidConstant constant => s!"invalid availability constant {constant}"
  | .noSource => "availability has neither constant nor bitstream"
  | .viewOutOfRange view views => s!"bufferView {view} out of range ({views} views)"
  | .bufferOutOfRange buffer => s!"buffer {buffer} out of range"
  | .externalBuffer => "external buffers are not supported"
  | .viewOverflow => "bufferView range overflows"
  | .viewPastBuffer view stop size =>
    s!"bufferView {view} ends at byte {stop} past the {size}-byte buffer"
  | .viewTooShort view bytes bits =>
    s!"bufferView {view} holds {bytes} bytes, too short for {bits} bits"
  | .stated text => text

/-- The wording of a refused configuration. -/
def ConfigError.message : ConfigError → String
  | .invalidJson => "invalid config JSON"
  | .noSubtreeLevels => "subtree_levels must be at least 1"
  | .subtreeLevelsAbove levels most => s!"subtree_levels ({levels}) must not exceed {most}"
  | .maxBelowMin max min => s!"max_level ({max}) must not be below min_level ({min})"
  | .maxNotBelow max bound => s!"max_level ({max}) must be below {bound}"
  | .minNotMultiple min levels =>
    s!"min_level ({min}) must be a multiple of subtree_levels ({levels})"
  | .unevenRanks min max levels =>
    s!"levels {min}..={max} do not split into ranks of {levels} levels"
  | .tilesetStart min => s!"implicit tilesets start at level 0, but min_level is {min}"
  | .footprintsRequired => "--footprints <FILE> is required"
  | .stated text => text

/-- The wording of a file failure. -/
def FileError.message : FileError → String
  | .notFound => "no such file or directory"
  | .notADirectory => "not a directory"
  | .isADirectory => "is a directory"
  | .nameTooLong => "name too long"
  | .alreadyExists => "already exists"
  | .invalidData text => text
  | .other text => text

/-- Numbers in messages have a point only before a fraction and never a power of ten. -/
def messageLayout : Layout :=
  ⟨none, false, .up⟩

/-- The wording of a storage failure. -/
def StorageError.message : StorageError → String
  | .invalidFootprints => "invalid footprint JSON"
  | .invertedFootprint west south east north =>
    let corners := [west, south, east, north].map fun x => (messageLayout.numeral x).text
    "inverted footprint [" ++ ", ".intercalate corners ++ "]"
  | .unreadable path cause => s!"failed to read {path}: {cause.message}"
  | .unwritable path cause => s!"failed to write {path}: {cause.message}"
  | .workerStopped => "subtree loader worker has stopped"
  | .stated text => text

namespace Error

/-- The wording of an error, led by its kind. -/
def message : Error → String
  | .precondition cause => "Precondition violated: " ++ cause.message
  | .notRankRoot level => s!"Level {level} is not the root of a subtree"
  | .format cause => "Subtree format error: " ++ cause.message
  | .storage cause => "Storage error: " ++ cause.message
  | .config cause => "Config error: " ++ cause.message
  | .file cause => "IO error: " ++ cause.message

/-- Whether the caller's input is at fault. -/
def isPrecondition : Error → Bool
  | .precondition _ | .notRankRoot _ => true
  | _ => false

end Error

end ImplicitTiling
