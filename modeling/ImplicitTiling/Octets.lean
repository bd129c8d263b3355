/-!
# Little-endian numbers in byte strings
-/

namespace ImplicitTiling.Octets

/-- The byte at position `p`, zero past the end. -/
def byteAt (bytes : ByteArray) (p : Nat) : UInt8 :=
  if h : p < bytes.size then bytes[p] else 0

/-- The `n ≤ 8` bytes from position `p` on as a number, least significant first. -/
def wordAt (bytes : ByteArray) (p : Nat) : Nat → UInt64
  | 0 => 0
  | n + 1 => (byteAt bytes p).toUInt64 ||| wordAt bytes (p + 1) n <<< 8

/-- The low `n` bytes of a number, least significant first. -/
def ofWord : Nat → UInt64 → List UInt8
  | 0, _ => []
  | n + 1, w => w.toUInt8 :: ofWord n (w >>> 8)

/-- A list of octets as a byte string. -/
def pack (octets : List UInt8) : ByteArray :=
  ⟨octets.toArray⟩

/-- The octets of a byte string. -/
def unpack (bytes : ByteArray) : List UInt8 :=
  bytes.data.toList

end ImplicitTiling.Octets
