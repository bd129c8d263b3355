import ImplicitTiling.Proofs.Availability.Rows
import ImplicitTiling.Proofs.Bitset.Members
import Mathlib.Data.List.GetD

/-!
# Pyramids over a row of leaves

`reduce_eq_ok`: reducing `4 ^ depth` leaves gives a pyramid of `depth + 1` levels. A bit of a level
is set when some leaf below it is, unless the level or one between it and the leaves is not kept.

The tiles keep every level. The content keeps the levels from some level on, so a level that is kept
has only kept levels below it, and `ofLeaves_iff_leafBelow` states both from the leaves alone.
-/

namespace ImplicitTiling.Availability

theorem size_parentRow {below : Bitset} {depth : Nat} (h : below.size = 4 ^ (depth + 1)) :
    (parentRow below).size = 4 ^ depth := by
  rw [parentRow, Bitset.size_ofIndices, h, Nat.pow_succ, Nat.mul_div_cancel _ (by omega)]

theorem get_parentRow {below : Bitset} {depth : Nat} (h : below.size = 4 ^ (depth + 1)) (j : Nat) :
    (parentRow below).get j = true ↔ ∃ k, below.get k = true ∧ k / 4 = j := by
  rw [parentRow, Bitset.get_ofIndices, Bool.and_eq_true, decide_eq_true_iff, decide_eq_true_iff,
    List.mem_map]
  simp only [Bitset.mem_ones]
  constructor
  · exact And.right
  · rintro ⟨k, hk, rfl⟩
    have hlt := Bitset.get_lt hk
    refine ⟨?_, k, hk, rfl⟩
    rw [h, Nat.pow_succ] at *
    omega

/-- The row of level `depth - 1` over the row of level `depth`, if that level is kept. -/
def rowAbove (keep : Nat → Bool) (depth : Nat) (below : Bitset) : Bitset :=
  if keep depth then parentRow below else Bitset.empty (4 ^ depth)

theorem rowsAbove_succ (keep : Nat → Bool) (depth : Nat) (below : Bitset) (rows : List Bitset) :
    rowsAbove keep (depth + 1) below rows =
      rowsAbove keep depth (rowAbove keep depth below) (below :: rows) :=
  rfl

theorem rowsAbove_eq_append (keep : Nat → Bool) (depth : Nat) (below : Bitset)
    (rows : List Bitset) :
    rowsAbove keep depth below rows = rowsAbove keep depth below [] ++ rows := by
  induction depth generalizing below rows with
  | zero => rfl
  | succ depth ih =>
    rw [rowsAbove_succ, rowsAbove_succ, ih _ (below :: rows), ih _ [below], List.append_assoc]
    rfl

theorem length_rowsAbove (keep : Nat → Bool) (depth : Nat) (below : Bitset) :
    (rowsAbove keep depth below []).length = depth + 1 := by
  induction depth generalizing below with
  | zero => rfl
  | succ depth ih =>
    rw [rowsAbove_succ, rowsAbove_eq_append, List.length_append, ih]
    rfl

theorem size_rowAbove (keep : Nat → Bool) {depth : Nat} {below : Bitset}
    (h : below.size = 4 ^ (depth + 1)) : (rowAbove keep depth below).size = 4 ^ depth := by
  unfold rowAbove
  split
  · exact size_parentRow h
  · rfl

theorem fits_rowsAbove (keep : Nat → Bool) (depth : Nat) {below : Bitset}
    (h : below.size = 4 ^ depth) : Fits .pyramid (rowsAbove keep depth below []) := by
  induction depth generalizing below with
  | zero =>
    intro i hi
    obtain rfl : i = 0 := Nat.lt_one_iff.1 hi
    exact h
  | succ depth ih =>
    have hlen := length_rowsAbove keep depth (rowAbove keep depth below)
    intro i hi
    rw [length_rowsAbove] at hi
    simp only [rowsAbove_succ, rowsAbove_eq_append keep depth _ [below]]
    by_cases hi' : i < depth + 1
    · rw [List.getElem_append_left (by omega)]
      exact ih (size_rowAbove keep h) i (by omega)
    · obtain rfl : i = depth + 1 := by omega
      rw [List.getElem_append_right (by omega)]
      simp [hlen, h]

/-- A bit of a level is set when the levels from there down are kept and some leaf below is set. -/
theorem get_rowsAbove (keep : Nat → Bool) (depth : Nat) {leaves : Bitset}
    (h : leaves.size = 4 ^ depth) {i : Nat} (hi : i ≤ depth) (j : Nat) :
    ((rowsAbove keep depth leaves []).getD i (Bitset.empty 0)).get j = true ↔
      (∀ l, i ≤ l → l < depth → keep l = true) ∧
        ∃ k, leaves.get k = true ∧ k / 4 ^ (depth - i) = j := by
  induction depth generalizing leaves with
  | zero =>
    obtain rfl : i = 0 := Nat.le_zero.1 hi
    simp [rowsAbove]
  | succ depth ih =>
    have hlen := length_rowsAbove keep depth (rowAbove keep depth leaves)
    rw [rowsAbove_succ, rowsAbove_eq_append]
    by_cases hi' : i ≤ depth
    · rw [List.getD_append _ _ _ _ (by omega), ih (size_rowAbove keep h) hi',
        show depth + 1 - i = (depth - i) + 1 by omega]
      constructor
      · rintro ⟨hkeep, k, hk, rfl⟩
        unfold rowAbove at hk
        split at hk
        · next hd =>
          obtain ⟨leaf, hleaf, rfl⟩ := (get_parentRow h k).1 hk
          refine ⟨?_, leaf, hleaf, ?_⟩
          · intro l hil hl
            rcases Nat.lt_succ_iff_lt_or_eq.1 hl with hl | rfl
            · exact hkeep l hil hl
            · exact hd
          · rw [Nat.pow_succ', Nat.div_div_eq_div_mul]
        · rw [Bitset.get_empty] at hk
          contradiction
      · rintro ⟨hkeep, k, hk, rfl⟩
        refine ⟨fun l hil hl => hkeep l hil (Nat.lt_succ_of_lt hl), k / 4, ?_, ?_⟩
        · unfold rowAbove
          rw [if_pos (hkeep depth hi' (Nat.lt_succ_self depth)), get_parentRow h]
          exact ⟨k, hk, rfl⟩
        · rw [Nat.pow_succ', Nat.div_div_eq_div_mul]
    · obtain rfl : i = depth + 1 := by omega
      rw [List.getD_append_right _ _ _ _ (by omega), hlen]
      simp only [Nat.sub_self, List.getD_cons_zero, Nat.pow_zero, Nat.div_one, exists_eq_right]
      constructor
      · exact fun hj => ⟨fun l hil hl => by omega, hj⟩
      · exact And.right

/-- **Reducing leaves.** The pyramid over a row of `4 ^ depth` leaves. -/
theorem reduce_eq_ok {leaves : Bitset} {depth : Nat} (h : leaves.size = 4 ^ depth)
    (keep : Nat → Bool) :
    ∃ a, reduce leaves (4 ^ depth) keep = .ok a ∧ a.topology = .pyramid ∧
      a.levelCount = depth + 1 ∧
      ∀ i ≤ depth, ∀ j, (a.row i).get j = true ↔
        (∀ l, i ≤ l → l < depth → keep l = true) ∧
          ∃ k, leaves.get k = true ∧ k / 4 ^ (depth - i) = j := by
  have hne : rowsAbove keep depth leaves [] ≠ [] := by
    intro hnil
    have := length_rowsAbove keep depth leaves
    rw [hnil] at this
    contradiction
  refine ⟨⟨.pyramid, _, fits_rowsAbove keep depth h⟩, ?_, rfl, length_rowsAbove keep depth leaves,
    fun i hi j => get_rowsAbove keep depth h hi j⟩
  unfold reduce
  rw [log4?_four_pow]
  dsimp only
  rw [if_neg (not_not_intro h)]
  exact ofRows_pyramid hne (fits_rowsAbove keep depth h)

/-! ## Tiles and content -/

/-- Some leaf below bit `j` of level `i` is set, where the leaves are the row of level `depth`. -/
def LeafBelow (leaves : Bitset) (depth i j : Nat) : Prop :=
  ∃ k, j * 4 ^ (depth - i) ≤ k ∧ k < (j + 1) * 4 ^ (depth - i) ∧ leaves.get k = true

theorem leafBelow_iff {leaves : Bitset} {depth i j : Nat} :
    LeafBelow leaves depth i j ↔ ∃ k, leaves.get k = true ∧ k / 4 ^ (depth - i) = j := by
  have hpos : 0 < 4 ^ (depth - i) := Nat.pow_pos (by decide)
  refine exists_congr fun k => ?_
  rw [Nat.div_eq_iff hpos, Nat.succ_mul]
  constructor
  · rintro ⟨hle, hlt, hk⟩
    exact ⟨hk, by omega⟩
  · rintro ⟨hk, hle⟩
    exact ⟨by omega, by omega, hk⟩

/-- Leaves are refused if their number is not a power of four, or is not the one stated. -/
theorem reduce_eq_error_iff {leaves : Bitset} {leafCount : Nat} {keep : Nat → Bool}
    {e : Precondition} :
    reduce leaves leafCount keep = .error e ↔
      (∀ depth, leafCount ≠ 4 ^ depth) ∧ e = .leafCount leafCount ∨
        (∃ depth, leafCount = 4 ^ depth) ∧ leaves.size ≠ leafCount ∧
          e = .leafLength leaves.size leafCount := by
  cases hlog : log4? leafCount with
  | none =>
    have hnone : ∀ depth, leafCount ≠ 4 ^ depth := by
      rintro depth rfl
      rw [log4?_four_pow] at hlog
      cases hlog
    have hreduce : reduce leaves leafCount keep = .error (.leafCount leafCount) := by
      rw [reduce, hlog]
    rw [hreduce]
    simp [hnone, eq_comm]
  | some depth =>
    obtain rfl := log4?_eq_some_iff.1 hlog
    by_cases hsize : leaves.size = 4 ^ depth
    · obtain ⟨a, ha, -⟩ := reduce_eq_ok hsize keep
      rw [ha]
      simp [hsize]
    · have hreduce : reduce leaves (4 ^ depth) keep =
          .error (.leafLength leaves.size (4 ^ depth)) := by
        rw [reduce, hlog]
        exact if_pos hsize
      rw [hreduce]
      simp [hsize, eq_comm]

theorem exists_reduce_error_iff {leaves : Bitset} {leafCount : Nat} {keep : Nat → Bool} :
    (∃ e, reduce leaves leafCount keep = .error e) ↔
      (∀ depth, leafCount ≠ 4 ^ depth) ∨ leaves.size ≠ leafCount := by
  simp only [reduce_eq_error_iff]
  constructor
  · rintro ⟨e, ⟨hpower, -⟩ | ⟨-, hsize, -⟩⟩
    · exact .inl hpower
    · exact .inr hsize
  · intro h
    by_cases hpower : ∃ depth, leafCount = 4 ^ depth
    · refine ⟨_, .inr ⟨hpower, h.resolve_left ?_, rfl⟩⟩
      exact fun hne => hpower.elim hne
    · exact ⟨_, .inl ⟨not_exists.1 hpower, rfl⟩⟩

theorem keeps_below_iff {minContentLevel : Int} {depth i : Nat} :
    (∀ l, i ≤ l → l < depth → decide (minContentLevel ≤ (l : Int) + 1) = true) ↔
      ¬ (i < depth ∧ (i : Int) + 1 < minContentLevel) := by
  simp only [decide_eq_true_iff]
  constructor
  · rintro h ⟨hi, hlt⟩
    have := h i (Nat.le_refl i) hi
    omega
  · intro h l hil hl
    omega

/-- **Tiles and content above leaves.** Over `4 ^ depth` leaves, a tile of a level exists when some
leaf below it does. The content is that of the tiles, except that the levels above the leaves that
are too shallow carry none. Any other leaves are refused for both. -/
theorem ofLeaves_iff_leafBelow (leaves : Bitset) (leafCount : Nat) (minContentLevel : Int) :
    (∀ depth, leafCount = 4 ^ depth → leaves.size = leafCount → ∃ tiles content,
      ofTileLeaves leaves leafCount = .ok tiles ∧
      ofContentLeaves leaves leafCount minContentLevel = .ok content ∧
      tiles.topology = .pyramid ∧ tiles.levelCount = depth + 1 ∧
      content.topology = .pyramid ∧ content.levelCount = depth + 1 ∧
      (∀ i ≤ depth, ∀ j < 4 ^ i,
        (tiles.row i).get j = true ↔ LeafBelow leaves depth i j) ∧
      ∀ i ≤ depth, content.row i =
        if i < depth ∧ (i : Int) + 1 < minContentLevel then .empty (4 ^ i) else tiles.row i) ∧
    ((∃ e, ofTileLeaves leaves leafCount = .error e) ↔
      (∀ depth, leafCount ≠ 4 ^ depth) ∨ leaves.size ≠ leafCount) ∧
    ((∃ e, ofContentLeaves leaves leafCount minContentLevel = .error e) ↔
      (∀ depth, leafCount ≠ 4 ^ depth) ∨ leaves.size ≠ leafCount) := by
  refine ⟨?_, exists_reduce_error_iff, exists_reduce_error_iff⟩
  rintro depth rfl hsize
  obtain ⟨tiles, htiles, htt, htl, htb⟩ := reduce_eq_ok hsize fun _ => true
  obtain ⟨content, hcontent, hct, hcl, hcb⟩ := reduce_eq_ok hsize
    fun level => decide (minContentLevel ≤ (level : Int) + 1)
  refine ⟨tiles, content, htiles, hcontent, htt, htl, hct, hcl, ?_, ?_⟩
  · intro i hi j _
    rw [htb i hi, leafBelow_iff]
    exact and_iff_right fun _ _ _ => rfl
  · intro i hi
    apply Bitset.ext_get
    · rw [size_row hct (by omega)]
      split
      · rfl
      · rw [size_row htt (by omega)]
    · intro j
      rw [Bool.eq_iff_iff, hcb i hi, keeps_below_iff]
      split
      · next hcut => simp [hcut]
      · next hkeep => simp [hkeep, htb i hi]

/-- Below four leaves of sixteen, of which one is set, with content from level 2 on: the root carries
none and is cleared, the level below it is kept. -/
theorem ofLeaves_iff_leafBelow_cut : ∃ tiles content,
    ofTileLeaves (Bitset.ofIndices 16 [5]) 16 = .ok tiles ∧
    ofContentLeaves (Bitset.ofIndices 16 [5]) 16 2 = .ok content ∧
    (tiles.row 1).get 1 = true ∧ (tiles.row 1).get 0 = false ∧
    content.row 0 = .empty 1 ∧ content.row 1 = tiles.row 1 := by
  obtain ⟨tiles, content, htiles, hcontent, -, -, -, -, hbits, hrows⟩ :=
    (ofLeaves_iff_leafBelow (Bitset.ofIndices 16 [5]) 16 2).1 2 rfl rfl
  refine ⟨tiles, content, htiles, hcontent, ?_, ?_, hrows 0 (by decide), hrows 1 (by decide)⟩
  · exact (hbits 1 (by decide) 1 (by decide)).2 ⟨5, by decide, by decide, by decide⟩
  · rw [← Bool.not_eq_true, hbits 1 (by decide) 0 (by decide)]
    rintro ⟨k, -, hlt, hk⟩
    rw [Bitset.get_ofIndices, Bool.and_eq_true, decide_eq_true_iff, decide_eq_true_iff,
      List.mem_singleton] at hk
    omega

end ImplicitTiling.Availability
