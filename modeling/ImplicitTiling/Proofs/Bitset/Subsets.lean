import ImplicitTiling.Proofs.Bitset.Packing
import ImplicitTiling.Proofs.Bitset.Members
import Mathlib.Data.Finset.Card
import Mathlib.Data.Finset.Image
import Mathlib.Data.Finset.Union

/-!
# Bit sets as finite sets of positions

A bit set of length `n` stands for the finite set of its positions below `n` (`members`), and every
operation on words is an operation on finite sets. `Making` lists the ways to come by a bit set: the
five constructors and, on top of them, changes of single positions and copies of other sets.
`Making.bits?` carries a making out on words and `Making.subset?` on finite sets; both refuse the
same makings, and where neither does, the words show exactly the finite set (`Making.shows_subset`).
Two bit sets are equal exactly when their lengths and their finite sets are
(`Bitset.eq_iff_members`).
-/

namespace ImplicitTiling

namespace Bitset

/-- The positions of a bit set, as a finite set. -/
def members (b : Bitset) : Finset Nat :=
  (Finset.range b.size).filter fun i => b.get i = true

variable {b other : Bitset} {n i : Nat}

@[simp] theorem mem_members : i ∈ b.members ↔ b.get i = true := by
  rw [members, Finset.mem_filter, Finset.mem_range]
  exact ⟨And.right, fun h => ⟨get_lt h, h⟩⟩

theorem members_subset (b : Bitset) : b.members ⊆ Finset.range b.size :=
  Finset.filter_subset _ _

theorem get_eq_decide_mem (b : Bitset) (i : Nat) : b.get i = decide (i ∈ b.members) := by
  rw [Bool.eq_iff_iff, decide_eq_true_iff, mem_members]

/-- The length and the finite set determine a bit set. -/
theorem eq_iff_members : b = other ↔ b.size = other.size ∧ b.members = other.members := by
  constructor
  · rintro rfl
    exact ⟨rfl, rfl⟩
  · rintro ⟨hsize, hmembers⟩
    apply ext_get hsize
    intro i
    rw [get_eq_decide_mem, get_eq_decide_mem, hmembers]

/-! ## The operations on finite sets -/

@[simp] theorem members_empty (n : Nat) : (empty n).members = ∅ := by
  ext i
  simp

@[simp] theorem members_full (n : Nat) : (full n).members = Finset.range n := by
  ext i
  simp

/-- A change of one position adds or removes that position and no other. -/
theorem members_set (h : i < b.size) (v : Bool) :
    (b.set i v).members = if v then insert i b.members else b.members.erase i := by
  ext j
  rw [mem_members, get_set]
  by_cases hj : j = i
  · subst hj
    cases v <;> simp [h]
  · cases v <;> simp [hj]

@[simp] theorem size_foldl_set (indices : List Nat) (b : Bitset) :
    (indices.foldl (fun b i => b.set i true) b).size = b.size := by
  induction indices generalizing b with
  | nil => rfl
  | cons i indices ih => rw [List.foldl_cons, ih, size_set]

/-- Positions added one by one join those that are there. -/
theorem members_foldl_set {indices : List Nat} (h : ∀ i ∈ indices, i < b.size) :
    (indices.foldl (fun b i => b.set i true) b).members = b.members ∪ indices.toFinset := by
  induction indices generalizing b with
  | nil => simp
  | cons i indices ih =>
    obtain ⟨hi, hrest⟩ := List.forall_mem_cons.1 h
    rw [List.foldl_cons, ih (by simpa using hrest), members_set hi, if_pos rfl,
      List.toFinset_cons, Finset.insert_union, Finset.union_insert]

theorem members_ofIndices {indices : List Nat} (h : ∀ i ∈ indices, i < n) :
    (ofIndices n indices).members = indices.toFinset := by
  rw [ofIndices, members_foldl_set (by simpa using h), members_empty, Finset.empty_union]

/-- A slice holds the members within its bounds, counted from its start. -/
theorem members_slice {start stop : Nat} :
    (b.slice start stop).members =
      (b.members.filter fun i => start ≤ i ∧ i < stop).image (· - start) := by
  ext i
  rw [mem_members, get_slice, Bool.and_eq_true, decide_eq_true_iff, Finset.mem_image]
  constructor
  · rintro ⟨hi, hget⟩
    refine ⟨start + i, ?_, Nat.add_sub_cancel_left start i⟩
    rw [Finset.mem_filter, mem_members]
    exact ⟨hget, by omega, by omega⟩
  · rintro ⟨a, ha, rfl⟩
    obtain ⟨hget, hle, hlt⟩ := Finset.mem_filter.1 ha
    have hback : start + (a - start) = a := by omega
    rw [hback]
    exact ⟨by omega, mem_members.1 hget⟩

/-- A copy adds the members of the other set, raised by the offset, and removes none. -/
theorem members_copyFrom {offset : Nat} (h : offset + other.size ≤ b.size) :
    (b.copyFrom other offset).members = b.members ∪ other.members.image (offset + ·) := by
  ext i
  rw [mem_members, get_copyFrom, Finset.mem_union, Finset.mem_image]
  simp only [Bool.and_eq_true, Bool.or_eq_true, decide_eq_true_iff, mem_members]
  constructor
  · rintro ⟨-, hb | ⟨hle, ho⟩⟩
    · exact Or.inl hb
    · exact Or.inr ⟨i - offset, ho, Nat.add_sub_cancel' hle⟩
  · rintro (hb | ⟨j, ho, rfl⟩)
    · exact ⟨get_lt hb, Or.inl hb⟩
    · have hj := get_lt ho
      refine ⟨by omega, Or.inr ⟨Nat.le_add_right offset j, ?_⟩⟩
      rwa [Nat.add_sub_cancel_left]

/-- The positions below `n` whose bit is set in packed bytes. -/
def packedMembers (bytes : ByteArray) (n : Nat) : Finset Nat :=
  (Finset.range n).filter fun i => (Octets.byteAt bytes (i / 8)).toNat.testBit (i % 8) = true

theorem exists_ofBytes? {bytes : ByteArray} (h : byteCount n ≤ bytes.size) :
    ∃ b, ofBytes? bytes n = some b ∧ b.size = n ∧ b.members = packedMembers bytes n := by
  cases hb : ofBytes? bytes n with
  | none =>
    have := ofBytes?_eq_none_iff.1 hb
    omega
  | some b =>
    obtain ⟨-, hsize, hget⟩ := ofBytes?_eq_some_iff.1 hb
    refine ⟨b, rfl, hsize, ?_⟩
    ext i
    rw [mem_members, packedMembers, Finset.mem_filter, Finset.mem_range]
    constructor
    · intro hi
      have hlt : i < n := hsize ▸ get_lt hi
      exact ⟨hlt, (hget i hlt).symm.trans hi⟩
    · rintro ⟨hlt, hi⟩
      exact (hget i hlt).trans hi

/-! ## What is read from a bit set -/

/-- The members are listed in strictly ascending order. -/
theorem pairwise_ones (b : Bitset) : b.ones.Pairwise (· < ·) := by
  rw [ones_eq_filter]
  exact List.pairwise_lt_range.filter _

theorem toFinset_ones (b : Bitset) : b.ones.toFinset = b.members := by
  ext i
  rw [List.mem_toFinset, mem_ones, mem_members]

theorem count_eq_card (b : Bitset) : b.count = b.members.card := by
  have hnodup : b.ones.Nodup := b.pairwise_ones.imp Nat.ne_of_lt
  rw [count_eq_length_ones, ← toFinset_ones, List.toFinset_card_of_nodup hnodup]

theorem isClear_iff_members : b.isClear = true ↔ b.members = ∅ := by
  rw [isClear_iff, Finset.eq_empty_iff_forall_notMem]
  simp only [mem_members, Bool.not_eq_true]

theorem isFull_iff_members : b.isFull = true ↔ b.members = Finset.range b.size := by
  rw [isFull_iff, Finset.Subset.antisymm_iff, and_iff_right b.members_subset, Finset.subset_iff]
  simp only [Finset.mem_range, mem_members]

/-! ## Member by member

Slices and copies are taken word by word; both equal what setting their members one by one
gives. Members are found bit by bit; clearing the lowest bits of the words finds the same ones. -/

theorem ones_eq_cleared (b : Bitset) :
    b.ones = b.words.toList.zipIdx.flatMap fun (w, k) => Word.clearedFrom 64 w (64 * k) := by
  simp only [Word.clearedFrom_eq]
  rfl

theorem slice_eq_ofIndices (b : Bitset) (start stop : Nat) :
    b.slice start stop = ofIndices (stop - start)
      ((b.ones.filter fun i => start ≤ i ∧ i < stop).map (· - start)) := by
  rw [eq_iff_members, size_slice, size_ofIndices, members_slice, members_ofIndices]
  · refine ⟨rfl, ?_⟩
    ext i
    simp
  · intro i hi
    obtain ⟨a, ha, rfl⟩ := List.mem_map.1 hi
    have := (List.mem_filter.1 ha).2
    rw [decide_eq_true_iff] at this
    omega

theorem copyFrom_eq_foldl {offset : Nat} (h : offset + other.size ≤ b.size) :
    b.copyFrom other offset =
      (other.ones.map (offset + ·)).foldl (fun b i => b.set i true) b := by
  rw [eq_iff_members, size_copyFrom, size_foldl_set, members_copyFrom h, members_foldl_set]
  · refine ⟨rfl, ?_⟩
    ext i
    simp
  · intro i hi
    obtain ⟨a, ha, rfl⟩ := List.mem_map.1 hi
    have := get_lt (mem_ones.1 ha)
    omega

/-! ## Refusals -/

/-- A list of members is taken up to the first one past the end, which is the one refused. -/
theorem foldlM_set? (indices : List Nat) (b : Bitset) :
    indices.foldlM (fun b i => b.set? i true) b =
      match indices.find? fun i => b.size ≤ i with
      | none => .ok (indices.foldl (fun b i => b.set i true) b)
      | some i => .error ⟨i, b.size⟩ := by
  induction indices generalizing b with
  | nil => rfl
  | cons i indices ih =>
    rw [List.foldlM_cons, List.find?_cons, set?]
    by_cases hi : i < b.size
    · rw [if_pos hi, decide_eq_false (Nat.not_le.2 hi)]
      show indices.foldlM (fun b i => b.set? i true) (b.set i true) = _
      rw [ih, size_set, List.foldl_cons]
    · rw [if_neg hi, decide_eq_true (Nat.not_lt.1 hi)]
      rfl

theorem ofIndices?_eq_ok {indices : List Nat} (h : ∀ i ∈ indices, i < n) :
    ofIndices? n indices = .ok (ofIndices n indices) := by
  have hnone : (indices.find? fun i => (empty n).size ≤ i) = none := by
    rw [List.find?_eq_none]
    intro i hi
    rw [size_empty, decide_eq_true_iff, Nat.not_le]
    exact h i hi
  rw [ofIndices?, foldlM_set?, hnone]
  rfl

theorem exists_ofIndices?_eq_error {indices : List Nat} (h : ¬ ∀ i ∈ indices, i < n) :
    ∃ e, ofIndices? n indices = .error e := by
  rw [ofIndices?, foldlM_set?]
  cases hfind : indices.find? fun i => (empty n).size ≤ i with
  | some i => exact ⟨_, rfl⟩
  | none =>
    refine absurd ?_ h
    intro i hi
    have := List.find?_eq_none.1 hfind i hi
    rwa [size_empty, decide_eq_true_iff, Nat.not_le] at this

end Bitset

open Bitset

/-! ## Makings -/

/-- A way to come by a bit set. -/
inductive Making where
  /-- No position of `n`. -/
  | empty (n : Nat)
  /-- Every position of `n`. -/
  | full (n : Nat)
  /-- The listed positions of `n`. -/
  | ofIndices (n : Nat) (indices : List Nat)
  /-- The first `n` positions of packed bytes. -/
  | ofBytes (bytes : ByteArray) (n : Nat)
  /-- The positions of a set from `start` up to `stop`. -/
  | slice (source : Making) (start stop : Nat)
  /-- A set with position `i` added or removed. -/
  | set (source : Making) (i : Nat) (v : Bool)
  /-- A set to which another one is copied at `offset`. -/
  | copyFrom (source other : Making) (offset : Nat)

namespace Making

/-- The making carried out on words; `none` where a position or a range is past the end. -/
def bits? : Making → Option Bitset
  | empty n => some (.empty n)
  | full n => some (.full n)
  | ofIndices n indices => (Bitset.ofIndices? n indices).toOption
  | ofBytes bytes n => Bitset.ofBytes? bytes n
  | slice source start stop => do
    let b ← source.bits?
    if start ≤ stop ∧ stop ≤ b.size then some (b.slice start stop) else none
  | set source i v => do
    let b ← source.bits?
    (b.set? i v).toOption
  | copyFrom source other offset => do
    let b ← source.bits?
    let o ← other.bits?
    if offset + o.size ≤ b.size then some (b.copyFrom o offset) else none

/-- The making carried out on a length and a finite set. -/
def subset? : Making → Option (Nat × Finset Nat)
  | empty n => some (n, ∅)
  | full n => some (n, Finset.range n)
  | ofIndices n indices =>
    if ∀ i ∈ indices, i < n then some (n, indices.toFinset) else none
  | ofBytes bytes n =>
    if byteCount n ≤ bytes.size then some (n, packedMembers bytes n) else none
  | slice source start stop => do
    let (n, A) ← source.subset?
    if start ≤ stop ∧ stop ≤ n then
      some (stop - start, (A.filter fun a => start ≤ a ∧ a < stop).image (· - start))
    else none
  | set source i v => do
    let (n, A) ← source.subset?
    if i < n then some (n, if v then insert i A else A.erase i) else none
  | copyFrom source other offset => do
    let (n, A) ← source.subset?
    let (m, B) ← other.subset?
    if offset + m ≤ n then some (n, A ∪ B.image (offset + ·)) else none

/-- Words and finite sets refuse the same makings and agree on all others. -/
theorem subset?_eq (m : Making) : m.subset? = m.bits?.map fun b => (b.size, b.members) := by
  induction m with
  | empty n => simp [subset?, bits?]
  | full n => simp [subset?, bits?]
  | ofIndices n indices =>
    rw [subset?, bits?]
    split
    · next h =>
      rw [ofIndices?_eq_ok h]
      show _ = some ((Bitset.ofIndices n indices).size, _)
      rw [size_ofIndices, members_ofIndices h]
    · next h =>
      obtain ⟨e, he⟩ := exists_ofIndices?_eq_error h
      rw [he]
      rfl
  | ofBytes bytes n =>
    rw [subset?, bits?]
    split
    · next h =>
      obtain ⟨b, hb, hsize, hmembers⟩ := exists_ofBytes? h
      rw [hb, ← hmembers, ← hsize]
      rfl
    · next h =>
      rw [ofBytes?_eq_none_iff.2 (Nat.not_le.1 h)]
      rfl
  | slice source start stop ih =>
    rw [subset?, bits?, ih]
    cases source.bits? with
    | none => rfl
    | some b =>
      show (if start ≤ stop ∧ stop ≤ b.size then _ else none) =
        (if start ≤ stop ∧ stop ≤ b.size then _ else none : Option Bitset).map _
      split
      · rw [← members_slice]
        rfl
      · rfl
  | set source i v ih =>
    rw [subset?, bits?, ih]
    cases source.bits? with
    | none => rfl
    | some b =>
      show (if i < b.size then _ else none) = (b.set? i v).toOption.map _
      rw [Bitset.set?]
      split
      · next h =>
        rw [← members_set h, ← size_set b i v]
        rfl
      · rfl
  | copyFrom source other offset ih ih' =>
    rw [subset?, bits?, ih, ih']
    cases source.bits? with
    | none => rfl
    | some b =>
      cases other.bits? with
      | none => rfl
      | some o =>
        show (if offset + o.size ≤ b.size then _ else none) =
          (if offset + o.size ≤ b.size then _ else none : Option Bitset).map _
        split
        · next h =>
          rw [← members_copyFrom h]
          rfl
        · rfl

end Making

/-- A bit set that stands for the set `A` of positions below `n`, and shows it in all that can be
read from it. -/
structure Bitset.Shows (b : Bitset) (n : Nat) (A : Finset Nat) : Prop where
  size_eq : b.size = n
  wordCount_eq : b.words.size = wordCount n
  clear_past : ∀ i, n ≤ i → bitOfWords b.words i = false
  subset : A ⊆ Finset.range n
  get?_eq : ∀ i < n, b.get? i = .ok (decide (i ∈ A))
  ascending : b.ones.Pairwise (· < ·)
  mem_ones_iff : ∀ i, i ∈ b.ones ↔ i ∈ A
  count_eq : b.count = A.card
  isClear_iff : b.isClear = true ↔ A = ∅
  isFull_iff : b.isFull = true ↔ A = Finset.range n

theorem Bitset.shows_members (b : Bitset) : b.Shows b.size b.members where
  size_eq := rfl
  wordCount_eq := b.words_size
  clear_past := b.clear_past
  subset := b.members_subset
  get?_eq i hi := by rw [get?, if_pos hi, get_eq_decide_mem]
  ascending := b.pairwise_ones
  mem_ones_iff i := by rw [mem_ones, mem_members]
  count_eq := b.count_eq_card
  isClear_iff := isClear_iff_members
  isFull_iff := isFull_iff_members

namespace Making

/-- A making that stays in range gives a bit set that stands for its finite set. Two such bit sets
are equal exactly when they stand for the same set of the same length. -/
theorem shows_subset {m : Making} {n : Nat} {A : Finset Nat} (h : m.subset? = some (n, A)) :
    ∃ b, m.bits? = some b ∧ b.Shows n A ∧
      ∀ (m' : Making) (b' : Bitset), m'.bits? = some b' →
        (b = b' ↔ m'.subset? = some (n, A)) := by
  rw [subset?_eq] at h
  obtain ⟨b, hb, hnA⟩ := Option.map_eq_some_iff.1 h
  obtain ⟨rfl, rfl⟩ := Prod.mk.injEq .. ▸ hnA
  refine ⟨b, hb, b.shows_members, ?_⟩
  intro m' b' hb'
  rw [subset?_eq, hb', eq_iff_members]
  simp only [Option.map_some, Option.some.injEq, Prod.mk.injEq]
  exact ⟨fun ⟨h, h'⟩ => ⟨h.symm, h'.symm⟩, fun ⟨h, h'⟩ => ⟨h.symm, h'.symm⟩⟩

/-- The last words of a set of three words, filled by a copy that ends at its last position. -/
theorem shows_subset_of_copy :
    ∃ b, (copyFrom (set (empty 130) 64 true) (slice (full 66) 63 66) 127).bits? = some b ∧
      b.Shows 130 {64, 127, 128, 129} ∧
      ∀ (m' : Making) (b' : Bitset), m'.bits? = some b' →
        (b = b' ↔ m'.subset? = some (130, {64, 127, 128, 129})) :=
  shows_subset (by decide)

end Making

end ImplicitTiling
