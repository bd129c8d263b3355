import ImplicitTiling.Bitset.Basic
import ImplicitTiling.Octets

/-!
# Bit sets as bytes

A bit set of `n` bits packs into `⌈n / 8⌉` bytes, position `i` at bit `i % 8` of byte `i / 8`; the
bits that remain in the last byte are zero. Reading takes any byte string that is long enough and
ignores whatever lies past the last position.
-/

namespace ImplicitTiling

/-- The number of bytes that hold `n` bits. -/
def byteCount (n : Nat) : Nat :=
  (n + 7) / 8

namespace Bitset

/-- The packed bytes, low bit first. -/
def toBytes (b : Bitset) : ByteArray :=
  ⟨Array.ofFn (n := byteCount b.size) fun k =>
    (b.words.getD (k / 8) 0 >>> (8 * (k.val % 8)).toUInt64).toUInt8⟩

/-- Unpacks `n` bits; `none` if there are too few bytes. -/
def ofBytes? (bytes : ByteArray) (n : Nat) : Option Bitset :=
  if bytes.size < byteCount n then none
  else some (build n fun k => Octets.wordAt bytes (8 * k) 8)

end Bitset

end ImplicitTiling
