import ImplicitTiling.Word

/-!
# Morton indices

The Morton index of a tile interleaves the bits of its coordinates, `x` in the even positions and
`y` in the odd ones, so that the four children of index `m` are `4 m`, …, `4 m + 3` and the tiles
below a tile form one run of indices. An index is a 64-bit word and a level says how many bits of
it count; two coordinates of 32 bits fill the word.
-/

namespace ImplicitTiling.Morton

/-- The word whose bit `2 i` is bit `i` of `x` and whose odd bits are clear. -/
def spread (x : UInt32) : UInt64 :=
  let w := x.toUInt64
  let w := (w ||| w <<< 16) &&& 0x0000ffff0000ffff
  let w := (w ||| w <<< 8) &&& 0x00ff00ff00ff00ff
  let w := (w ||| w <<< 4) &&& 0x0f0f0f0f0f0f0f0f
  let w := (w ||| w <<< 2) &&& 0x3333333333333333
  (w ||| w <<< 1) &&& 0x5555555555555555

/-- The coordinate whose bit `i` is bit `2 i` of `w`. -/
def compact (w : UInt64) : UInt32 :=
  let w := w &&& 0x5555555555555555
  let w := (w ||| w >>> 1) &&& 0x3333333333333333
  let w := (w ||| w >>> 2) &&& 0x0f0f0f0f0f0f0f0f
  let w := (w ||| w >>> 4) &&& 0x00ff00ff00ff00ff
  let w := (w ||| w >>> 8) &&& 0x0000ffff0000ffff
  let w := (w ||| w >>> 16) &&& 0x00000000ffffffff
  w.toUInt32

/-- The Morton index of tile `(x, y)` of a level, cut to the bits of the level. -/
def interleave (x y : UInt32) (level : Nat) : UInt64 :=
  (spread x ||| spread y <<< 1) &&& Word.lowMask (2 * level)

/-- The coordinates of the tile with a given Morton index; bits above the level do not count. -/
def deinterleave (index : UInt64) (level : Nat) : UInt32 × UInt32 :=
  let index := index &&& Word.lowMask (2 * level)
  (compact index, compact (index >>> 1))

/-- The index of the child in a quadrant, `0` to `3`; bits that leave the word are lost. -/
def child (index : UInt64) (quadrant : UInt64) : UInt64 :=
  index <<< 2 ||| quadrant

/-- The least index among the tiles `depth` levels below. -/
def firstDescendant (index : UInt64) (depth : Nat) : UInt64 :=
  index <<< (2 * depth).toUInt64

end ImplicitTiling.Morton
