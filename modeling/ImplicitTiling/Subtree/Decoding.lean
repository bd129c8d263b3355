import ImplicitTiling.Bitset.Bytes
import ImplicitTiling.Schedule
import ImplicitTiling.Subtree.Basic
import ImplicitTiling.Subtree.Description
import ImplicitTiling.Subtree.Header

/-!
# Decoding a subtree

The number of levels is not part of the bytes, so a reader brings it along. Everything else is
checked: the header, the lengths it declares, the JSON chunk, and for each bitstream that its view
lies within the buffer and holds enough bytes. Bytes behind the declared chunks do not count.
-/

namespace ImplicitTiling

namespace Subtree

/-- The JSON chunk and the binary chunk. -/
def splitChunks (bytes : ByteArray) : Except FormatError (ByteArray × ByteArray) := do
  let header ← Header.read bytes
  let jsonStop := Header.size + header.jsonLength.toNat
  if lengthLimit ≤ jsonStop then throw .jsonLengthOverflow
  let binaryStop := jsonStop + header.binaryLength.toNat
  if lengthLimit ≤ binaryStop then throw .binaryLengthOverflow
  if bytes.size < binaryStop then throw (.shorterThanDeclared binaryStop bytes.size)
  return (bytes.extract Header.size jsonStop, bytes.extract jsonStop binaryStop)

/-- The first `length` bits that a view shows. -/
def viewedBits (d : Description) (binary : ByteArray) (index length : Nat) :
    Except FormatError Bitset := do
  let some view := d.views[index]? | throw (.viewOutOfRange index d.views.length)
  let some buffer := d.buffers[view.buffer]? | throw (.bufferOutOfRange view.buffer)
  if view.buffer ≠ 0 then throw .externalBuffer
  let stop := view.byteOffset + view.byteLength
  if lengthLimit ≤ stop then throw .viewOverflow
  if buffer.byteLength < stop ∨ binary.size < stop then
    throw (.viewPastBuffer index stop (min binary.size buffer.byteLength))
  let some bits := Bitset.ofBytes? (binary.extract view.byteOffset stop) length
    | throw (.viewTooShort index view.byteLength length)
  return bits

/-- The `length` bits of a source. A bitstream goes before a constant. -/
def sourceBits (d : Description) (binary : ByteArray) (source : BitSource) (length : Nat) :
    Except FormatError Bitset :=
  match source.bitstream, source.constant with
  | some index, _ => viewedBits d binary index length
  | none, some 0 => .ok (.empty length)
  | none, some 1 => .ok (.full length)
  | none, some constant => .error (.invalidConstant constant)
  | none, none => .error .noSource

/-- The availability of a source. -/
def sourceAvailability (d : Description) (binary : ByteArray) (source : BitSource) (length : Nat)
    (topology : Topology) : Except Error Availability :=
  match sourceBits d binary source length with
  | .error cause => .error (.format cause)
  | .ok bits => (Availability.ofBitset bits length topology).mapError .precondition

/-- The subtree of `levels` levels that a description and a binary chunk stand for. -/
def ofDescription (d : Description) (binary : ByteArray) (levels : Nat) :
    Except Error Subtree := do
  let tileLength := pyramidLength levels
  let tiles ← sourceAvailability d binary d.tiles tileLength .pyramid
  let content ← match d.content.head? with
    | some source => sourceAvailability d binary source tileLength .pyramid
    | none => pure (.empty levels .pyramid)
  let children ← sourceAvailability d binary d.children (4 ^ levels) .children
  (ofParts tiles content children levels).mapError .precondition

/-- Decodes a subtree of `levels` levels. -/
def decode (bytes : ByteArray) (levels : Nat) : Except Error Subtree :=
  if levels = 0 ∨ maxSubtreeLevels < levels then .error (.precondition (.decodedLevels levels))
  else
    match splitChunks bytes with
    | .error cause => .error (.format cause)
    | .ok (json, binary) =>
      match (Json.read? (Octets.unpack json)).bind Description.ofJson? with
      | none => .error (.format .invalidJson)
      | some d => ofDescription d binary levels

end Subtree

end ImplicitTiling
