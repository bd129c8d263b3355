import ImplicitTiling.Error
import ImplicitTiling.Octets

/-!
# The header of an encoded subtree

An encoded subtree starts with 24 bytes, all numbers little-endian: a magic word that spells `subt`,
a version, and the lengths of the two chunks that follow, JSON text and packed bits.
-/

namespace ImplicitTiling

/-- The first 24 bytes of an encoded subtree. -/
structure Header where
  magic : UInt32
  version : UInt32
  jsonLength : UInt64
  binaryLength : UInt64
  deriving DecidableEq, Repr

namespace Header

/-- The number of bytes in a header. -/
def size : Nat := 24

/-- The word that spells `subt`. -/
def subtreeMagic : UInt32 := 0x74627573

/-- The version that is written and read. -/
def subtreeVersion : UInt32 := 1

/-- The header of chunks of the given lengths. -/
def ofLengths (jsonLength binaryLength : Nat) : Header :=
  ⟨subtreeMagic, subtreeVersion, jsonLength.toUInt64, binaryLength.toUInt64⟩

/-- The bytes of a header. -/
def octets (h : Header) : List UInt8 :=
  Octets.ofWord 4 h.magic.toUInt64 ++ Octets.ofWord 4 h.version.toUInt64
    ++ Octets.ofWord 8 h.jsonLength ++ Octets.ofWord 8 h.binaryLength

/-- Reads the header at the start of a byte string; the chunks need not be there. -/
def read (bytes : ByteArray) : Except FormatError Header :=
  if bytes.size < size then .error (.shortHeader bytes.size size)
  else
    let h : Header :=
      { magic := (Octets.wordAt bytes 0 4).toUInt32
        version := (Octets.wordAt bytes 4 4).toUInt32
        jsonLength := Octets.wordAt bytes 8 8
        binaryLength := Octets.wordAt bytes 16 8 }
    if h.magic ≠ subtreeMagic then .error (.badMagic h.magic)
    else if h.version ≠ subtreeVersion then .error (.unsupportedVersion h.version)
    else .ok h

end Header

end ImplicitTiling
