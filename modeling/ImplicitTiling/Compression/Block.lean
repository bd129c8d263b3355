import ImplicitTiling.Octets

/-!
# LZ4 blocks

A block is a row of sequences: literal bytes, and then a match, which repeats bytes that went out
some distance before. A match has at least four bytes and may reach into the bytes that it makes
itself. A block ends right after literals. Lengths that do not fit the four bits of a token go on in
further bytes, as long as those are 255.
-/

namespace ImplicitTiling.Block

/-! ## Reading -/

/-- A length that starts with the four bits `n` of a token and goes on in `s` where they are all
set. -/
def readLength? (n : Nat) (s : List UInt8) : Option (Nat × List UInt8) :=
  if n < 15 then some (n, s) else go 15 s
where
  /-- Adds bytes up to the first that is not 255. -/
  go (sum : Nat) : List UInt8 → Option (Nat × List UInt8)
    | [] => none
    | o :: s => if o == 255 then go (sum + 255) s else some (sum + o.toNat, s)

/-- Appends a run of the first `n` bytes of `s`, and gives the rest. -/
def takeOnto? : Nat → ByteArray → List UInt8 → Option (ByteArray × List UInt8)
  | 0, out, s => some (out, s)
  | n + 1, out, o :: s => takeOnto? n (out.push o) s
  | _ + 1, _, [] => none

/-- Repeats `n` times the byte that stands `offset` bytes before the end. -/
def repeatOnto : Nat → Nat → ByteArray → ByteArray
  | 0, _, out => out
  | n + 1, offset, out =>
    repeatOnto n offset (out.push (Octets.byteAt out (out.size - offset)))

/-- Reads sequences until the end of the block, at most `fuel` of them, with at most `limit` bytes in
all. -/
def readSequences? (limit : Nat) : Nat → List UInt8 → ByteArray → Option ByteArray
  | 0, _, _ => none
  | _ + 1, [], _ => none
  | fuel + 1, token :: s, out => do
    let (literals, s) ← readLength? (token / 16).toNat s
    if limit < out.size + literals then none
    let (out, s) ← takeOnto? literals out s
    match s with
    | [] => return out
    | [_] => none
    | low :: high :: s =>
      let offset := low.toNat + 256 * high.toNat
      let (extra, s) ← readLength? (token % 16).toNat s
      let length := extra + 4
      if offset = 0 ∨ out.size < offset ∨ limit < out.size + length then none
      readSequences? limit fuel s (repeatOnto length offset out)

/-- The bytes of a block, at most `limit` of them. -/
def decompress? (limit : Nat) (block : List UInt8) : Option ByteArray :=
  readSequences? limit (block.length + 1) block .empty

/-! ## Writing -/

/-- Literal bytes and the match behind them. -/
structure Sequence where
  literals : List UInt8
  offset : Nat
  length : Nat

/-- The four bits of a token for a length. -/
def tokenBits (n : Nat) : Nat :=
  min n 15

/-- The bytes by which a length goes on behind its token. -/
def lengthOctets (n : Nat) : List UInt8 :=
  if n < 15 then [] else List.replicate ((n - 15) / 255) 255 ++ [((n - 15) % 255).toUInt8]

/-- The bytes of a sequence. -/
def Sequence.octets (q : Sequence) : List UInt8 :=
  (16 * tokenBits q.literals.length + tokenBits (q.length - 4)).toUInt8
    :: lengthOctets q.literals.length ++ q.literals
    ++ [(q.offset % 256).toUInt8, (q.offset / 256).toUInt8] ++ lengthOctets (q.length - 4)

/-- The bytes of the literals that end a block. -/
def closingOctets (literals : List UInt8) : List UInt8 :=
  (16 * tokenBits literals.length).toUInt8 :: lengthOctets literals.length ++ literals

/-- How many bytes from `p` on equal those from `q` on, up to position `stop`, at most `fuel`. -/
def matchLength (bytes : ByteArray) (stop : Nat) : Nat → Nat → Nat → Nat
  | 0, _, _ => 0
  | fuel + 1, p, q =>
    if p < stop && Octets.byteAt bytes p == Octets.byteAt bytes q then
      matchLength bytes stop fuel (p + 1) (q + 1) + 1
    else 0

/-- The number of places in the table of positions. -/
def tableSize : Nat := 4096

/-- The place in the table for the four bytes at a position. -/
def tablePlace (bytes : ByteArray) (p : Nat) : Nat :=
  (Octets.wordAt bytes p 4 * 2654435761 % 0x100000000 / 0x100000).toNat

/-- The farthest that a match may reach back. -/
def maxOffset : Nat := 65535

/-- Cuts the bytes from position `start` on into sequences, those found so far standing in reverse,
and the literals behind the last of them. `table` holds for each hash the last position plus one. No
match starts in the last twelve bytes, and none reaches into the last five. -/
def findSequences (bytes : ByteArray) :
    Nat → Array Nat → (start p : Nat) → List Sequence → List Sequence × List UInt8
  | 0, _, start, _, found => (found.reverse, Octets.unpack (bytes.extract start bytes.size))
  | fuel + 1, table, start, p, found =>
    if bytes.size < p + 12 then
      (found.reverse, Octets.unpack (bytes.extract start bytes.size))
    else
      let place := tablePlace bytes p
      let before := table.getD place 0
      let table := table.set! place (p + 1)
      let length :=
        if before = 0 || maxOffset < p + 1 - before then 0
        else matchLength bytes (bytes.size - 5) bytes.size p (before - 1)
      if length < 4 then findSequences bytes fuel table start (p + 1) found
      else
        let q : Sequence := ⟨Octets.unpack (bytes.extract start p), p + 1 - before, length⟩
        findSequences bytes fuel table (p + length) (p + length) (q :: found)

/-- A block that holds the given bytes. -/
def compress (bytes : ByteArray) : List UInt8 :=
  let (sequences, literals) :=
    findSequences bytes (bytes.size + 1) (Array.replicate tableSize 0) 0 0 []
  sequences.flatMap Sequence.octets ++ closingOctets literals

end ImplicitTiling.Block
