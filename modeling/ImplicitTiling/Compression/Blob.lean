import ImplicitTiling.Compression.Block
import ImplicitTiling.Error

/-!
# Compressed blobs

A compressed blob is the number of its bytes, in 32 bits, and one LZ4 block.
-/

namespace ImplicitTiling.Blob

/-- Compresses a blob. -/
def compress (blob : ByteArray) : ByteArray :=
  Octets.pack (Octets.ofWord 4 blob.size.toUInt64 ++ Block.compress blob)

/-- The blob that some bytes hold. A block that makes fewer bytes than stated is accepted, one that
makes more is not. -/
def decompress (bytes : ByteArray) : Except FileError ByteArray :=
  if bytes.size < 4 then .error (.invalidData "LZ4 decompression failed: no size")
  else
    let block := Octets.unpack (bytes.extract 4 bytes.size)
    match Block.decompress? (Octets.wordAt bytes 0 4).toNat block with
    | some blob => .ok blob
    | none => .error (.invalidData "LZ4 decompression failed: malformed block")

end ImplicitTiling.Blob
