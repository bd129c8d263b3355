import ImplicitTiling.Bitset.Bytes
import ImplicitTiling.Subtree.Basic
import ImplicitTiling.Subtree.Description
import ImplicitTiling.Subtree.Header

/-!
# Encoding a subtree

An encoded subtree is a header, a JSON chunk padded with spaces, and a binary chunk padded with
zeros, both to a multiple of eight bytes. An availability without set bits is the constant 0, one
with all bits set the constant 1; any other is packed into the binary chunk, in the order tiles,
content, child subtrees, each where the one before it ends.
-/

namespace ImplicitTiling

/-- The bytes that bring a chunk of `n` bytes to a multiple of eight. -/
def paddingFor (n : Nat) : Nat :=
  (8 - n % 8) % 8

/-- The bitstreams packed so far and a view of each. -/
structure Packing where
  data : ByteArray := .empty
  views : List BufferView := []

namespace Packing

/-- Packs an availability where it needs a bitstream, and says where its bits come from. -/
def add (p : Packing) (a : Availability) : Packing × BitSource :=
  match a.shape with
  | .empty => (p, { constant := some 0 })
  | .full => (p, { constant := some 1 })
  | .bitstream bits =>
    let packed := bits.toBytes
    let view : BufferView := ⟨0, p.data.size, packed.size⟩
    ({ data := p.data ++ packed, views := p.views ++ [view] },
      { bitstream := some p.views.length, availableCount := some bits.count })

end Packing

namespace Subtree

/-- The description and the packed bits of a subtree. -/
def describe (s : Subtree) : Description × ByteArray :=
  let (p, tiles) := ({} : Packing).add s.tiles
  let (p, content) := p.add s.content
  let (p, children) := p.add s.children
  let buffer : PackedBuffer := { byteLength := p.data.size + paddingFor p.data.size }
  ({ buffers := [buffer], views := p.views, tiles, content := [content], children }, p.data)

/-- The bytes of a subtree. -/
def encode (s : Subtree) : ByteArray :=
  let (description, data) := s.describe
  let json := description.toJson.compact
  let jsonPadding := paddingFor json.length
  let dataPadding := paddingFor data.size
  let header := Header.ofLengths (json.length + jsonPadding) (data.size + dataPadding)
  Octets.pack (header.octets ++ json ++ List.replicate jsonPadding 32) ++ data
    ++ Octets.pack (List.replicate dataPadding 0)

end Subtree

end ImplicitTiling
