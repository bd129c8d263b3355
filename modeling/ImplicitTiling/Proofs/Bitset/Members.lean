import ImplicitTiling.Bitset.Basic
import Mathlib.Data.List.Range

/-!
# Members of a bit set

`ones_eq_filter`: the members in ascending order are the positions below the length at which the
set reads `true`. Counting, the tests for none and for all, and sets made from a list of members
are read off from it. Within a word they may as well be found by clearing the lowest bit again and
again (`Word.clearedFrom_eq`).
-/

namespace ImplicitTiling

namespace Word

theorem bit_zero_eq (w : UInt64) : bit w 0 = (w &&& 1 == 1) := by
  unfold bit
  rw [show (0 : Nat).toUInt64 = 0 from rfl, UInt64.shiftRight_zero]
  rfl

theorem bit_shiftRight_one (w : UInt64) (i : Nat) : bit (w >>> 1) i = bit w (i + 1) := by
  rw [show (1 : UInt64) = (1 : Nat).toUInt64 from rfl, bit_shiftRight w (by omega), Nat.add_comm]

theorem bit_eq_false_of_eq_zero {w : UInt64} (h : (w == 0) = true) (i : Nat) :
    bit w i = false := by
  rw [beq_iff_eq.1 h, bit_zero]

/-- The set positions of a word are those whose bit reads `true`. -/
theorem onesFrom_eq (n : Nat) (w : UInt64) (base : Nat) :
    onesFrom n w base = ((List.range n).filter (bit w)).map (base + ·) := by
  induction n generalizing w base with
  | zero => rfl
  | succ n ih =>
    have hstep : (onesFrom n (w >>> 1) (base + 1)) =
        (((List.range n).map Nat.succ).filter (bit w)).map (base + ·) := by
      rw [ih, List.filter_map, List.map_map]
      have hf : bit w ∘ Nat.succ = bit (w >>> 1) := by
        funext i
        exact (bit_shiftRight_one w i).symm
      have hg : (fun x => base + x) ∘ Nat.succ = (base + 1 + ·) := by
        funext i
        show base + (i + 1) = base + 1 + i
        omega
      rw [hf, hg]
    rw [onesFrom, List.range_succ_eq_map, List.filter_cons, bit_zero_eq]
    split
    · next h0 =>
      have hnil : (((List.range n).map Nat.succ).filter (bit w)) = [] := by
        rw [List.filter_eq_nil_iff]
        intro i _
        rw [bit_eq_false_of_eq_zero h0]
        simp
      have hbit : (w &&& 1 == 1) = false := by
        rw [← bit_zero_eq, bit_eq_false_of_eq_zero h0]
      rw [hbit, hnil]
      rfl
    · split
      · rw [List.map_cons, hstep, Nat.add_zero]
      · exact hstep

/-- Counting the bits of a word counts its set positions. -/
theorem countFrom_eq (n : Nat) (w : UInt64) (base : Nat) :
    countFrom n w = (onesFrom n w base).length := by
  induction n generalizing w base with
  | zero => rfl
  | succ n ih =>
    unfold countFrom onesFrom
    split
    · rfl
    · split
      · rw [ih _ (base + 1), List.length_cons]
      · exact ih _ (base + 1)

/-! ## Lowest bit first -/

/-- The lowest position set in a word, or 64. -/
def lowest (w : UInt64) : Nat :=
  ((List.range 64).find? (bit w)).getD 64

/-- The positions set in a word, each raised by `base`: the lowest one is listed and cleared, at
most `n` times. -/
def clearedFrom : Nat → UInt64 → Nat → List Nat
  | 0, _, _ => []
  | n + 1, w, base =>
    if w == 0 then [] else (base + lowest w) :: clearedFrom n (w &&& (w - 1)) base

/-- One less than a number has the bits below its lowest one set, that one clear, and those above it
as they were. -/
theorem testBit_clearLowest {n k i : Nat} (hk : n.testBit k = true)
    (hlow : ∀ j < k, n.testBit j = false) :
    (n &&& (n - 1)).testBit i = (n.testBit i && decide (i ≠ k)) := by
  have hmod : n % 2 ^ k = 0 := by
    apply Nat.eq_of_testBit_eq
    intro j
    rw [Nat.testBit_mod_two_pow, Nat.zero_testBit]
    by_cases hj : j < k
    · rw [hlow j hj, Bool.and_false]
    · rw [decide_eq_false hj, Bool.false_and]
  obtain ⟨a, rfl⟩ := Nat.dvd_of_mod_eq_zero hmod
  have hodd : a % 2 = 1 := by
    rw [Nat.testBit_two_pow_mul, Nat.sub_self, Nat.testBit_zero] at hk
    simpa using hk
  have hpos := Nat.two_pow_pos k
  have hless : 2 ^ k * a - 1 = 2 ^ k * (a - 1) + (2 ^ k - 1) := by
    obtain ⟨c, rfl⟩ : ∃ c, a = c + 1 := ⟨a - 1, by omega⟩
    rw [Nat.mul_succ, Nat.add_sub_cancel]
    omega
  rw [hless, Nat.testBit_and, Nat.testBit_two_pow_mul_add _ (by omega), Nat.testBit_two_pow_mul]
  rcases Nat.lt_trichotomy i k with hi | rfl | hi
  · simp [Nat.not_le.2 hi]
  · have heven : (a - 1) % 2 = 0 := by omega
    simp [Nat.testBit_zero, heven]
  · obtain ⟨d, hd⟩ : ∃ d, i - k = d + 1 := ⟨i - k - 1, by omega⟩
    have hhalf : (a - 1) / 2 = a / 2 := by omega
    rw [if_neg (Nat.not_lt.2 (Nat.le_of_lt hi)), hd, Nat.testBit_succ, Nat.testBit_succ, hhalf,
      decide_eq_true (Nat.ne_of_gt hi)]
    simp [Nat.le_of_lt hi]

theorem bit_clearLowest {w : UInt64} {k : Nat} (hk : bit w k = true)
    (hlow : ∀ j < k, bit w j = false) (i : Nat) :
    bit (w &&& (w - 1)) i = (bit w i && decide (i ≠ k)) := by
  simp only [bit_eq_testBit] at hk hlow ⊢
  have hpos : w.toNat ≠ 0 := by
    intro h0
    rw [h0, Nat.zero_testBit] at hk
    cases hk
  have hle : (1 : UInt64) ≤ w := UInt64.le_iff_toNat_le.2 (Nat.one_le_iff_ne_zero.2 hpos)
  rw [UInt64.toNat_and, UInt64.toNat_sub_of_le _ _ hle]
  exact testBit_clearLowest hk hlow

/-- What is left in the list after its first element is left in the word after its lowest bit. -/
theorem filter_bit_clearLowest {w : UInt64} {k : Nat} {rest : List Nat}
    (h : (List.range 64).filter (bit w) = k :: rest) :
    (List.range 64).filter (bit (w &&& (w - 1))) = rest := by
  have hsorted : (k :: rest).Pairwise (· < ·) := h ▸ List.pairwise_lt_range.filter _
  have hmem (i : Nat) : i ∈ k :: rest ↔ i < 64 ∧ bit w i = true := by
    rw [← h, List.mem_filter, List.mem_range]
  have hk := (hmem k).1 List.mem_cons_self
  have hlow : ∀ j < k, bit w j = false := by
    intro j hj
    rw [Bool.eq_false_iff]
    intro hbit
    rcases List.mem_cons.1 ((hmem j).2 ⟨by omega, hbit⟩) with rfl | hj'
    · exact Nat.lt_irrefl _ hj
    · exact Nat.lt_asymm hj ((List.pairwise_cons.1 hsorted).1 j hj')
  have hne : ∀ i ∈ rest, decide (i ≠ k) = true := fun i hi =>
    decide_eq_true (Nat.ne_of_gt ((List.pairwise_cons.1 hsorted).1 i hi))
  calc (List.range 64).filter (bit (w &&& (w - 1)))
      = (List.range 64).filter fun i => bit w i && decide (i ≠ k) :=
        List.filter_congr fun i _ => bit_clearLowest hk.2 hlow i
    _ = ((List.range 64).filter (bit w)).filter fun i => decide (i ≠ k) := by
        rw [List.filter_filter]
        exact List.filter_congr fun i _ => Bool.and_comm _ _
    _ = rest := by
        rw [h, List.filter_cons_of_neg (by simp), List.filter_eq_self.2 hne]

theorem clearedFrom_of_length_le {n : Nat} {w : UInt64} (base : Nat)
    (hn : ((List.range 64).filter (bit w)).length ≤ n) :
    clearedFrom n w base = ((List.range 64).filter (bit w)).map (base + ·) := by
  induction n generalizing w with
  | zero =>
    rw [List.length_eq_zero_iff.1 (Nat.le_zero.1 hn)]
    rfl
  | succ n ih =>
    unfold clearedFrom
    split
    · next h0 =>
      have hnil : (List.range 64).filter (bit w) = [] :=
        List.filter_eq_nil_iff.2 fun i _ => by simp [bit_eq_false_of_eq_zero h0]
      rw [hnil]
      rfl
    · next h0 =>
      cases hones : (List.range 64).filter (bit w) with
      | nil =>
        refine absurd (beq_iff_eq.2 (ext fun i hi => ?_)) h0
        rw [bit_zero, Bool.eq_false_iff]
        exact List.filter_eq_nil_iff.1 hones i (List.mem_range.2 hi)
      | cons k rest =>
        have hrest := filter_bit_clearLowest hones
        have hlowest : lowest w = k := by
          rw [lowest, ← List.head?_filter, hones]
          rfl
        rw [hones, List.length_cons] at hn
        rw [ih (by rw [hrest]; omega), hrest, hlowest, List.map_cons]

/-- Clearing the lowest bit again and again lists the positions of a word in ascending order. -/
theorem clearedFrom_eq (w : UInt64) (base : Nat) : clearedFrom 64 w base = onesFrom 64 w base := by
  have hle := List.length_filter_le (bit w) (List.range 64)
  rw [List.length_range] at hle
  rw [onesFrom_eq, clearedFrom_of_length_le base hle]

end Word

theorem range_mul_eq_flatMap (m n : Nat) :
    List.range (m * n) = (List.range m).flatMap fun k => (List.range n).map (n * k + ·) := by
  induction m with
  | zero => simp
  | succ m ih =>
    rw [Nat.succ_mul, List.range_add, ih, List.range_succ, List.flatMap_append,
      List.flatMap_singleton, Nat.mul_comm m n]

namespace Bitset

theorem size_le_words (b : Bitset) : b.size ≤ b.words.size * 64 := by
  rw [b.words_size, wordCount]
  omega

theorem get_word_add (b : Bitset) {i : Nat} (k : Nat) (hi : i < 64) :
    b.get (64 * k + i) = Word.bit (b.words.getD k 0) i := by
  unfold get bitOfWords
  rw [show (64 * k + i) / 64 = k by omega, show (64 * k + i) % 64 = i by omega]

/-- The members in ascending order are the positions that read `true`. -/
theorem ones_eq_filter (b : Bitset) : b.ones = (List.range b.size).filter b.get := by
  have hwords : b.words.toList.zipIdx =
      (List.range b.words.size).map fun k => (b.words.getD k 0, k) := by
    apply List.ext_getElem
    · simp
    · intro k hk hk'
      simp only [List.length_zipIdx, Array.length_toList] at hk
      simp [Array.getD, hk]
  have hblock (k : Nat) : Word.onesFrom 64 (b.words.getD k 0) (64 * k) =
      ((List.range 64).map (64 * k + ·)).filter b.get := by
    rw [Word.onesFrom_eq, List.filter_map]
    congr 1
    apply List.filter_congr
    intro i hi
    exact (get_word_add b k (List.mem_range.1 hi)).symm
  have hall : b.ones = (List.range (b.words.size * 64)).filter b.get := by
    unfold ones
    rw [hwords, List.flatMap_map, range_mul_eq_flatMap, List.filter_flatMap]
    simp only [hblock]
  -- Past the length nothing reads `true`, so the last word adds no positions.
  obtain ⟨d, hd⟩ := Nat.exists_eq_add_of_le b.size_le_words
  rw [hall, hd, List.range_add, List.filter_append]
  have hnil : ((List.range d).map (b.size + ·)).filter b.get = [] := by
    rw [List.filter_eq_nil_iff]
    intro i hi
    obtain ⟨j, -, rfl⟩ := List.mem_map.1 hi
    rw [get_of_le (Nat.le_add_right _ _)]
    simp
  rw [hnil, List.append_nil]

theorem get_lt {b : Bitset} {i : Nat} (h : b.get i = true) : i < b.size := by
  by_contra hn
  rw [get_of_le (Nat.not_lt.1 hn)] at h
  contradiction

@[simp] theorem mem_ones {b : Bitset} {i : Nat} : i ∈ b.ones ↔ b.get i = true := by
  rw [ones_eq_filter, List.mem_filter, List.mem_range]
  exact ⟨And.right, fun h => ⟨get_lt h, h⟩⟩

theorem count_eq_length_ones (b : Bitset) : b.count = b.ones.length := by
  -- The fold carries the count of the words before; the block of a word does not depend on its
  -- place as far as its length goes.
  have hfold : ∀ (words : List UInt64) (n k : Nat),
      words.foldl (fun n w => n + Word.countFrom 64 w) n =
        n + ((words.zipIdx k).flatMap fun p => Word.onesFrom 64 p.1 (64 * p.2)).length := by
    intro words
    induction words with
    | nil => intro n k; rfl
    | cons w words ih =>
      intro n k
      rw [List.foldl_cons, ih _ (k + 1), List.zipIdx_cons, List.flatMap_cons, List.length_append,
        Word.countFrom_eq 64 w (64 * k), Nat.add_assoc]
  unfold count ones
  rw [← Array.foldl_toList]
  exact (hfold _ 0 0).trans (Nat.zero_add _)

theorem count_eq_countP (b : Bitset) : b.count = (List.range b.size).countP b.get := by
  rw [count_eq_length_ones, ones_eq_filter, List.countP_eq_length_filter]

theorem isClear_iff {b : Bitset} : b.isClear = true ↔ ∀ i, b.get i = false := by
  unfold isClear
  rw [Array.all_eq_true]
  constructor
  · intro h i
    unfold get bitOfWords
    by_cases hk : i / 64 < b.words.size
    · simp [Array.getD, hk, beq_iff_eq.1 (h _ hk)]
    · simp [Array.getD, hk]
  · intro h k hk
    rw [beq_iff_eq]
    apply Word.ext
    intro i hi
    have := get_word_add b k hi
    rw [h] at this
    simpa [Array.getD, hk] using this.symm

theorem isFull_iff {b : Bitset} : b.isFull = true ↔ ∀ i < b.size, b.get i = true := by
  unfold isFull
  rw [beq_iff_eq, count_eq_countP]
  nth_rewrite 2 [← List.length_range (n := b.size)]
  rw [List.countP_eq_length]
  simp only [List.mem_range]

/-- A set made from a list holds those members of the list that are below its length. -/
theorem get_ofIndices (n : Nat) (indices : List Nat) (i : Nat) :
    (ofIndices n indices).get i = (decide (i < n) && decide (i ∈ indices)) := by
  have hfold : ∀ (indices : List Nat) (b : Bitset),
      (indices.foldl (fun b i => b.set i true) b).get i =
        (b.get i || (decide (i < b.size) && decide (i ∈ indices))) := by
    intro indices
    induction indices with
    | nil => intro b; simp
    | cons j indices ih =>
      intro b
      rw [List.foldl_cons, ih, get_set, size_set]
      by_cases hj : i = j
      · subst hj
        by_cases hi : i < b.size <;> simp [hi, get_of_le, Nat.not_lt.1]
      · simp [hj]
  rw [ofIndices, hfold, get_empty, size_empty, Bool.false_or]

@[simp] theorem size_ofIndices (n : Nat) (indices : List Nat) :
    (ofIndices n indices).size = n := by
  have hfold : ∀ (indices : List Nat) (b : Bitset),
      (indices.foldl (fun b i => b.set i true) b).size = b.size := by
    intro indices
    induction indices with
    | nil => intro b; rfl
    | cons j indices ih => intro b; rw [List.foldl_cons, ih, size_set]
  rw [ofIndices, hfold, size_empty]

theorem exists_get (n : Nat) (f : Nat → Bool) :
    ∃ b : Bitset, b.size = n ∧ ∀ k < n, b.get k = f k := by
  refine ⟨ofIndices n ((List.range n).filter f), size_ofIndices _ _, ?_⟩
  intro k hk
  rw [get_ofIndices, Bool.eq_iff_iff]
  simp [hk]

end Bitset

end ImplicitTiling
