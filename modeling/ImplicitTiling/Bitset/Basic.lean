import ImplicitTiling.Word

/-!
# Fixed-length bit sets

A bit set of length `size` is kept in the fewest 64-bit words that hold it, low bit of the first
word first, with every bit past the length clear. Both facts are part of the type, so two bit sets
are equal exactly when they have the same length and the same members (`Bitset.ext_get`).

Whole sets are made by `Bitset.build`, which takes the words from a function and cuts them to the
length; `get_build` says what it holds, and the operations below are read off from it.
-/

namespace ImplicitTiling

/-- The number of 64-bit words that hold `n` bits. -/
def wordCount (n : Nat) : Nat :=
  (n + 63) / 64

/-- Bit `i` of an array of words, the low bit of the first word first; clear past the end. -/
def bitOfWords (words : Array UInt64) (i : Nat) : Bool :=
  Word.bit (words.getD (i / 64) 0) (i % 64)

/-- A set of positions below `size`. -/
structure Bitset where
  size : Nat
  words : Array UInt64
  words_size : words.size = wordCount size
  clear_past : ∀ i, size ≤ i → bitOfWords words i = false
  deriving DecidableEq

namespace Bitset

/-- A position that a bit set does not have. -/
structure OutOfRange where
  index : Nat
  size : Nat
  deriving DecidableEq, Repr

/-- The wording of an access past the end. -/
def OutOfRange.message (e : OutOfRange) : String :=
  s!"bit {e.index} out of range {e.size}"

/-- Whether position `i` is in the set; `false` past the end. -/
def get (b : Bitset) (i : Nat) : Bool :=
  bitOfWords b.words i

theorem get_of_le {b : Bitset} {i : Nat} (h : b.size ≤ i) : b.get i = false :=
  b.clear_past i h

/-- Bit sets of one length with the same members are equal. -/
theorem ext_get {a b : Bitset} (hs : a.size = b.size) (h : ∀ i, a.get i = b.get i) : a = b := by
  obtain ⟨n, ws, hws, hc⟩ := a
  obtain ⟨m, vs, hvs, hd⟩ := b
  simp only at hs
  subst hs
  have : ws = vs := by
    apply Array.ext (hws.trans hvs.symm)
    intro k hk hk'
    apply Word.ext
    intro i hi
    have := h (64 * k + i)
    simp only [get, bitOfWords] at this
    have hq : (64 * k + i) / 64 = k := by omega
    have hr : (64 * k + i) % 64 = i := by omega
    rw [hq, hr] at this
    simpa [Array.getD, hk, hk'] using this
  subst this
  rfl

/-! ## Making bit sets -/

/-- The words `f 0, f 1, …`, cut to the first `n` bits. -/
def cutWords (n : Nat) (f : Nat → UInt64) : Array UInt64 :=
  Array.ofFn (n := wordCount n) fun k => f k &&& Word.lowMask (n - 64 * k)

theorem bitOfWords_cutWords (n : Nat) (f : Nat → UInt64) (i : Nat) :
    bitOfWords (cutWords n f) i = (decide (i < n) && Word.bit (f (i / 64)) (i % 64)) := by
  unfold bitOfWords cutWords
  by_cases hk : i / 64 < wordCount n
  · have hr : i % 64 < 64 := Nat.mod_lt _ (by omega)
    have hiff : i % 64 < n - 64 * (i / 64) ↔ i < n := by omega
    simp [Array.getD, hk, hr, hiff, Bool.and_comm]
  · have hn : ¬ i < n := by
      unfold wordCount at hk
      omega
    simp [Array.getD, hk, hn]

/-- The bit set of length `n` whose word `k` is `f k`, cut to the length. -/
def build (n : Nat) (f : Nat → UInt64) : Bitset where
  size := n
  words := cutWords n f
  words_size := by simp [cutWords]
  clear_past i h := by simp [bitOfWords_cutWords, Nat.not_lt.2 h]

@[simp] theorem size_build (n : Nat) (f : Nat → UInt64) : (build n f).size = n :=
  rfl

theorem get_build (n : Nat) (f : Nat → UInt64) (i : Nat) :
    (build n f).get i = (decide (i < n) && Word.bit (f (i / 64)) (i % 64)) :=
  bitOfWords_cutWords n f i

/-- The bit set of length `n` without members. -/
def empty (n : Nat) : Bitset :=
  build n fun _ => 0

/-- The bit set of length `n` that holds every position. -/
def full (n : Nat) : Bitset :=
  build n fun _ => Word.lowMask 64

@[simp] theorem size_empty (n : Nat) : (empty n).size = n :=
  rfl

@[simp] theorem size_full (n : Nat) : (full n).size = n :=
  rfl

@[simp] theorem get_empty (n i : Nat) : (empty n).get i = false := by
  simp [empty, get_build]

@[simp] theorem get_full (n i : Nat) : (full n).get i = decide (i < n) := by
  have : i % 64 < 64 := Nat.mod_lt _ (by omega)
  simp [full, get_build, this]

/-! ## Single positions -/

/-- Puts word `k` through `f`. -/
theorem bitOfWords_modify (words : Array UInt64) (k : Nat) (f : UInt64 → UInt64) (i : Nat) :
    bitOfWords (words.modify k f) i =
      if k = i / 64 ∧ k < words.size then Word.bit (f (words.getD k 0)) (i % 64)
      else bitOfWords words i := by
  unfold bitOfWords
  by_cases hk : k = i / 64
  · subst hk
    by_cases hs : i / 64 < words.size
    · simp [Array.getD, hs, Array.getElem_modify]
    · simp [Array.getD, hs]
  · simp only [hk, false_and, if_false]
    congr 1
    simp only [Array.getD_eq_getD_getElem?, Array.getElem?_modify, if_neg hk]

/-- Adds or removes position `i`; a position past the end changes nothing. -/
def set (b : Bitset) (i : Nat) (v : Bool) : Bitset :=
  if h : i < b.size then
    { size := b.size
      words := b.words.modify (i / 64) fun w =>
        if v then w ||| Word.single (i % 64) else w &&& ~~~ Word.single (i % 64)
      words_size := by rw [Array.size_modify, b.words_size]
      clear_past := by
        intro j hj
        have hne : j ≠ i := by omega
        rw [bitOfWords_modify]
        split
        · next hk =>
          have hm : j % 64 ≠ i % 64 := by omega
          have hj' := b.clear_past j hj
          rw [bitOfWords, ← hk.1] at hj'
          generalize b.words.getD (i / 64) 0 = w at hj' ⊢
          cases v <;> simp [hj', Word.bit_single (Nat.mod_lt i (by omega)), hm]
        · exact b.clear_past j hj }
  else b

@[simp] theorem size_set (b : Bitset) (i : Nat) (v : Bool) : (b.set i v).size = b.size := by
  unfold set
  split <;> rfl

theorem get_set (b : Bitset) (i : Nat) (v : Bool) (j : Nat) :
    (b.set i v).get j = if j = i ∧ i < b.size then v else b.get j := by
  unfold set
  split
  · next h =>
    have hk : i / 64 < b.words.size := by
      rw [b.words_size, wordCount]
      omega
    have hi64 : i % 64 < 64 := Nat.mod_lt i (by omega)
    show bitOfWords _ j = _
    rw [bitOfWords_modify]
    by_cases hji : j = i
    · subst hji
      cases v <;> simp [hk, h, Word.bit_single hi64, Word.bit_not]
    · have hright : ¬ (j = i ∧ i < b.size) := fun hq => hji hq.1
      rw [if_neg hright]
      by_cases hq : i / 64 = j / 64
      · have hm : j % 64 ≠ i % 64 := by omega
        have hj64 : j % 64 < 64 := Nat.mod_lt j (by omega)
        rw [if_pos ⟨hq, hk⟩]
        show _ = bitOfWords b.words j
        rw [bitOfWords, ← hq]
        generalize b.words.getD (i / 64) 0 = w
        cases v <;> simp [Word.bit_single hi64, Word.bit_not, hm, hj64]
      · rw [if_neg (fun h => hq h.1)]
        rfl
  · next h => simp [h]

/-- Whether position `i` is in the set; a position past the end is refused. -/
def get? (b : Bitset) (i : Nat) : Except OutOfRange Bool :=
  if i < b.size then .ok (b.get i) else .error ⟨i, b.size⟩

/-- Adds or removes position `i`; a position past the end is refused. -/
def set? (b : Bitset) (i : Nat) (v : Bool) : Except OutOfRange Bitset :=
  if i < b.size then .ok (b.set i v) else .error ⟨i, b.size⟩

/-- The bit set of length `n` with the given members; the first one past the end is refused. -/
def ofIndices? (n : Nat) (indices : List Nat) : Except OutOfRange Bitset :=
  indices.foldlM (fun b i => b.set? i true) (empty n)

/-- The bit set of length `n` with the given members, those past the end left out. -/
def ofIndices (n : Nat) (indices : List Nat) : Bitset :=
  indices.foldl (fun b i => b.set i true) (empty n)

/-! ## Runs of positions -/

/-- The 64 bits from position `p` on. -/
def window (words : Array UInt64) (p : Nat) : UInt64 :=
  let low := words.getD (p / 64) 0 >>> (p % 64).toUInt64
  if p % 64 = 0 then low
  else low ||| words.getD (p / 64 + 1) 0 <<< (64 - p % 64).toUInt64

theorem bit_window (words : Array UInt64) (p i : Nat) :
    Word.bit (window words p) i = (decide (i < 64) && bitOfWords words (p + i)) := by
  have hp : p % 64 < 64 := Nat.mod_lt p (by omega)
  by_cases hi : i < 64
  · simp only [hi, decide_true, Bool.true_and]
    unfold window bitOfWords
    by_cases hz : p % 64 = 0
    · have hq : (p + i) / 64 = p / 64 := by omega
      have hr : (p + i) % 64 = i := by omega
      simp only [hz, if_true]
      rw [Word.bit_shiftRight _ (by omega), hq, hr, Nat.zero_add]
    · simp only [hz, if_false]
      rw [Word.bit_or, Word.bit_shiftRight _ hp, Word.bit_shiftLeft _ (by omega)]
      by_cases hc : p % 64 + i < 64
      · have hq : (p + i) / 64 = p / 64 := by omega
        have hr : (p + i) % 64 = p % 64 + i := by omega
        have hn : ¬ (64 - p % 64 ≤ i) := by omega
        simp [hq, hr, hn]
      · have hq : (p + i) / 64 = p / 64 + 1 := by omega
        have hr : (p + i) % 64 = i - (64 - p % 64) := by omega
        have hn : 64 - p % 64 ≤ i := by omega
        rw [Word.bit_of_ge (Nat.not_lt.1 hc), hq, hr]
        simp [hi, hn]
  · simp [hi, Word.bit_of_ge (Nat.not_lt.1 hi)]

/-- The positions from `start` up to `stop`, counted from `start`. -/
def slice (b : Bitset) (start stop : Nat) : Bitset :=
  build (stop - start) fun k => window b.words (start + 64 * k)

@[simp] theorem size_slice (b : Bitset) (start stop : Nat) :
    (b.slice start stop).size = stop - start :=
  rfl

theorem get_slice (b : Bitset) (start stop i : Nat) :
    (b.slice start stop).get i = (decide (i < stop - start) && b.get (start + i)) := by
  have hr : i % 64 < 64 := Nat.mod_lt i (by omega)
  have hp : start + 64 * (i / 64) + i % 64 = start + i := by omega
  rw [slice, get_build, bit_window, hp]
  simp [hr, get]

/-- The 64 bits from position `64 * k` on, after every position has been raised by `offset`. -/
def raisedWord (words : Array UInt64) (offset k : Nat) : UInt64 :=
  if offset ≤ 64 * k then window words (64 * k - offset)
  else if offset < 64 * k + 64 then words.getD 0 0 <<< (offset - 64 * k).toUInt64
  else 0

theorem bit_raisedWord (words : Array UInt64) (offset k i : Nat) (hi : i < 64) :
    Word.bit (raisedWord words offset k) i =
      (decide (offset ≤ 64 * k + i) && bitOfWords words (64 * k + i - offset)) := by
  unfold raisedWord
  split
  · next h =>
    have hle : offset ≤ 64 * k + i := by omega
    have hp : 64 * k - offset + i = 64 * k + i - offset := by omega
    rw [bit_window, hp]
    simp [hi, hle]
  · next h =>
    split
    · next h' =>
      rw [Word.bit_shiftLeft _ (by omega)]
      by_cases hc : offset ≤ 64 * k + i
      · have hle : offset - 64 * k ≤ i := by omega
        have hq : (64 * k + i - offset) / 64 = 0 := by omega
        have hr : (64 * k + i - offset) % 64 = i - (offset - 64 * k) := by omega
        simp [hi, hc, hle, bitOfWords, hq, hr]
      · have hle : ¬ (offset - 64 * k ≤ i) := by omega
        simp [hc, hle]
    · next h' =>
      have hle : ¬ (offset ≤ 64 * k + i) := by omega
      simp [hle]

/-- Adds every member of `other`, raised by `offset`; those that land past the end are left
out. -/
def copyFrom (b other : Bitset) (offset : Nat) : Bitset :=
  build b.size fun k => b.words.getD k 0 ||| raisedWord other.words offset k

@[simp] theorem size_copyFrom (b other : Bitset) (offset : Nat) :
    (b.copyFrom other offset).size = b.size :=
  rfl

theorem get_copyFrom (b other : Bitset) (offset i : Nat) :
    (b.copyFrom other offset).get i =
      (decide (i < b.size) && (b.get i || (decide (offset ≤ i) && other.get (i - offset)))) := by
  have hr : i % 64 < 64 := Nat.mod_lt i (by omega)
  have hp : 64 * (i / 64) + i % 64 = i := by omega
  rw [copyFrom, get_build, Word.bit_or, bit_raisedWord _ _ _ _ hr, hp]
  rfl

/-! ## Members -/

/-- The members in ascending order. -/
def ones (b : Bitset) : List Nat :=
  b.words.toList.zipIdx.flatMap fun (w, k) => Word.onesFrom 64 w (64 * k)

/-- The number of members. -/
def count (b : Bitset) : Nat :=
  b.words.foldl (fun n w => n + Word.countFrom 64 w) 0

/-- Whether the set has no members. -/
def isClear (b : Bitset) : Bool :=
  b.words.all (· == 0)

/-- Whether every position below the length is a member. -/
def isFull (b : Bitset) : Bool :=
  b.count == b.size

/-- The length and the members, as in `Bitset(5) \x7b0, 2\x7d`. -/
def describe (b : Bitset) : String :=
  "Bitset(" ++ toString b.size ++ ") \x7b" ++ ", ".intercalate (b.ones.map toString) ++ "\x7d"

end Bitset

end ImplicitTiling
