import ImplicitTiling.Proofs.Store.Occupied

/-!
# Coherent subtrees

Whatever the oracle says, the rows of a subtree that the store builds fit one another: a bit is set
exactly if one of the four bits below it is. `Coherent` says so of the subtree below a node above
the deepest rank, whose last row stands over the child subtrees, and that each child subtree it
points to was resolved and is there. `CoherentDeepest` says so of a root of the deepest rank, which
points to no child subtrees.

The steps of the store keep to this: nothing fits (`coherent_empty`), four quadrants fit
(`Coherent.join`), the summaries of four ranks fit (`Coherent.summarize`), and so does what is
reduced from any leaves (`exists_coherentDeepest`).
-/

namespace ImplicitTiling

/-- The bits one level below level `i` of a subtree, which below the last level are those of the child
subtrees. -/
def Subtree.rowBelow (t : Subtree) (i : Nat) : Bitset :=
  if i + 1 < t.levels then t.tiles.row (i + 1) else t.children.row 0

theorem Subtree.IsJoin.get_rowBelow {parts : List Subtree} {levels : Nat} {t : Subtree}
    (hjoin : IsJoin parts levels t) {q : Nat} (hq : q < parts.length)
    (hpart : parts[q].levels = levels) {i c : Nat} (hi : i < levels) (hc : c < 4 ^ (i + 1)) :
    (t.rowBelow (i + 1)).get (q * 4 ^ (i + 1) + c) = (parts[q].rowBelow i).get c := by
  unfold rowBelow
  rw [hjoin.levels_eq, hpart]
  by_cases hlast : i + 1 < levels
  · rw [if_pos (Nat.succ_lt_succ hlast), if_pos hlast]
    exact hjoin.tile_below (i + 1) hlast q hq c hc
  · obtain rfl : levels = i + 1 := by omega
    rw [if_neg (Nat.lt_irrefl _), if_neg (Nat.lt_irrefl _)]
    exact hjoin.child q hq c hc

theorem Subtree.IsJoin.get_root_below {parts : List Subtree} {levels : Nat} {t : Subtree}
    (hjoin : IsJoin parts levels t) (h1 : 1 ≤ levels) {q : Nat} (hq : q < parts.length) :
    (t.tiles.row 1).get q = parts[q].tiles.isAvailable := by
  have hroot := hjoin.tile_below 0 h1 q hq 0 Nat.one_pos
  rw [Nat.pow_zero, Nat.mul_one, Nat.add_zero] at hroot
  exact hroot

namespace Store

/-- A subtree of `levels` levels below the node of a level with a given Morton index, in a rank that
is not the deepest; `resolved` tells which subtrees the rank roots below it were resolved to. -/
structure Coherent (resolved : Nat → Nat → Subtree → Prop) (level index levels : Nat)
    (t : Subtree) : Prop where
  levels_eq : t.levels = levels
  tile : ∀ i < levels, ∀ j < 4 ^ i, ((t.tiles.row i).get j = true ↔
    ∃ q < 4, (t.rowBelow i).get (4 * j + q) = true)
  child : ∀ c < 4 ^ levels, (t.children.row 0).get c = true →
    ∃ sub, resolved (level + levels) (4 ^ levels * index + c) sub ∧ sub.tiles.isAvailable = true
  content : t.content = .empty levels .pyramid

/-- A subtree of the deepest rank. -/
structure CoherentDeepest (levels : Nat) (t : Subtree) : Prop where
  levels_eq : t.levels = levels
  tile : ∀ i, i + 1 < levels → ∀ j, ((t.tiles.row i).get j = true ↔
    ∃ q < 4, (t.tiles.row (i + 1)).get (4 * j + q) = true)
  child : ∀ c, (t.children.row 0).get c = false
  content : t.content = t.tiles

variable {resolved : Nat → Nat → Subtree → Prop} {level index levels : Nat} {t : Subtree}

theorem Coherent.mono {resolved' : Nat → Nat → Subtree → Prop}
    (hresolved : ∀ level index sub, resolved level index sub → resolved' level index sub)
    (h : Coherent resolved level index levels t) : Coherent resolved' level index levels t where
  levels_eq := h.levels_eq
  tile := h.tile
  child c hc hset := by
    obtain ⟨sub, hsub, havailable⟩ := h.child c hc hset
    exact ⟨sub, hresolved _ _ _ hsub, havailable⟩
  content := h.content

/-! ## Above the deepest rank -/

theorem get_rowBelow_empty (levels i j : Nat) : ((Subtree.empty levels).rowBelow i).get j = false := by
  unfold Subtree.rowBelow
  split
  · exact Availability.get_row_empty levels .pyramid (i + 1) j
  · exact Availability.get_row_empty levels .children 0 j

theorem coherent_empty (resolved : Nat → Nat → Subtree → Prop) (level index levels : Nat) :
    Coherent resolved level index levels (.empty levels) where
  levels_eq := rfl
  tile i _ j _ := by
    have hrow : ((Subtree.empty levels).tiles.row i).get j = false :=
      Availability.get_row_empty levels .pyramid i j
    simp [hrow, get_rowBelow_empty]
  child c _ hset := by
    have hrow : ((Subtree.empty levels).children.row 0).get c = false :=
      Availability.get_row_empty levels .children 0 c
    rw [hrow] at hset
    cases hset
  content := rfl

theorem any_iff_exists_get {parts : List Subtree} (h4 : parts.length = 4) {below : Bitset}
    (hbelow : ∀ q (hq : q < parts.length), below.get q = parts[q].tiles.isAvailable) :
    parts.any (·.tiles.isAvailable) = true ↔ ∃ q < 4, below.get (4 * 0 + q) = true := by
  simp only [Nat.mul_zero, Nat.zero_add]
  rw [Subtree.any_iff h4]
  constructor
  · rintro ⟨q, hq, hroot⟩
    exact ⟨q, hq, (hbelow q (h4.symm ▸ hq)).trans hroot⟩
  · rintro ⟨q, hq, hget⟩
    exact ⟨q, hq, (hbelow q (h4.symm ▸ hq)).symm.trans hget⟩

/-- Four coherent quadrants make a coherent subtree. -/
theorem Coherent.join {parts : List Subtree} (hjoin : Subtree.IsJoin parts levels t)
    (h4 : parts.length = 4) (h1 : 1 ≤ levels)
    (h : ∀ q (hq : q < parts.length),
      Coherent resolved (level + 1) (4 * index + q) levels parts[q]) :
    Coherent resolved level index (levels + 1) t where
  levels_eq := hjoin.levels_eq
  tile i hi j hj := by
    cases i with
    | zero =>
      obtain rfl : j = 0 := Nat.lt_one_iff.1 hj
      rw [hjoin.tile_root]
      refine any_iff_exists_get h4 fun q hq => ?_
      rw [Subtree.rowBelow, hjoin.levels_eq, if_pos (Nat.succ_lt_succ h1)]
      exact hjoin.get_root_below h1 hq
    | succ i =>
      obtain ⟨q, hq, r, hr, rfl, -⟩ := Availability.exists_quadrant index hj
      rw [← h4] at hq
      have hi' : i < levels := Nat.lt_of_succ_lt_succ hi
      rw [hjoin.tile_below i hi' q hq r hr, (h q hq).tile i hi' r hr]
      refine exists_congr fun q' => and_congr_right fun hq' => ?_
      have hindex : 4 * (q * 4 ^ i + r) + q' = q * 4 ^ (i + 1) + (4 * r + q') := by
        rw [Nat.pow_succ, ← Nat.mul_assoc]
        omega
      rw [hindex, hjoin.get_rowBelow hq (h q hq).levels_eq hi' (Node.child_lt hr hq')]
  child c hc hset := by
    obtain ⟨q, hq, r, hr, rfl, hindex⟩ := Availability.exists_quadrant index hc
    rw [← h4] at hq
    rw [hjoin.child q hq r hr] at hset
    obtain ⟨sub, hsub, havailable⟩ := (h q hq).child r hr hset
    refine ⟨sub, ?_, havailable⟩
    rw [hindex, ← Nat.add_assoc, Nat.add_right_comm]
    exact hsub
  content := hjoin.content_eq_empty h4 fun q hq => (h q (h4.symm ▸ hq)).content

/-- The summaries of the ranks below a node on the last level of its rank make a coherent subtree. -/
theorem Coherent.summarize {rs : List Subtree} {joined : Subtree}
    (hjoin : Subtree.IsJoin rs 1 joined) (hsummary : Subtree.IsSummary joined t)
    (h4 : rs.length = 4)
    (h : ∀ q (hq : q < rs.length), ∃ sub, resolved (level + 1) (4 * index + q) sub ∧
      Subtree.IsSummary sub rs[q]) :
    Coherent resolved level index 1 t := by
  have hchild (q : Nat) (hq : q < rs.length) :
      (t.children.row 0).get q = rs[q].tiles.isAvailable := by
    rw [hsummary.child, if_pos (Nat.le_of_eq hjoin.levels_eq.symm)]
    exact hjoin.get_root_below Nat.one_pos hq
  refine ⟨hsummary.levels_eq, ?_, ?_, hsummary.content_eq_empty hjoin.content_root⟩
  · intro i hi j hj
    obtain rfl : i = 0 := Nat.lt_one_iff.1 hi
    obtain rfl : j = 0 := Nat.lt_one_iff.1 hj
    rw [hsummary.tile, hjoin.tile_root, Subtree.rowBelow, hsummary.levels_eq,
      if_neg (Nat.lt_irrefl 1)]
    exact any_iff_exists_get h4 hchild
  · intro c hc hset
    rw [Nat.pow_one, ← h4] at hc
    rw [hchild c hc] at hset
    obtain ⟨sub, hsub, hr⟩ := h c hc
    exact ⟨sub, by rw [Nat.pow_one]; exact hsub, hr.tile.symm.trans hset⟩

/-! ## In the deepest rank -/

theorem coherentDeepest_empty (levels : Nat) : CoherentDeepest levels (.empty levels) where
  levels_eq := rfl
  tile i _ j := by
    have hrow (i j : Nat) : ((Subtree.empty levels).tiles.row i).get j = false :=
      Availability.get_row_empty levels .pyramid i j
    simp [hrow]
  child := Availability.get_row_empty levels .children 0
  content := rfl

/-- Any leaves below a root of the deepest rank make a coherent subtree. -/
theorem exists_coherentDeepest {s : Schedule} (hs : s.Valid) {leaves : Bitset}
    (hsize : leaves.size = 4 ^ (s.subtreeLevels - 1)) :
    ∃ tiles t,
      Availability.ofTileLeaves leaves (4 ^ (s.subtreeLevels - 1)) = .ok tiles ∧
      Availability.ofContentLeaves leaves (4 ^ (s.subtreeLevels - 1)) s.minContentLevel =
        .ok tiles ∧
      Subtree.ofParts tiles tiles (.empty s.subtreeLevels .children) s.subtreeLevels = .ok t ∧
      CoherentDeepest s.subtreeLevels t := by
  obtain ⟨tiles, t, htiles, hcontent, ht, hlevels, hct, hchildren, hbits⟩ :=
    exists_ofLeaves hs hsize
  refine ⟨tiles, t, htiles, hcontent, ht, hlevels, ?_, ?_, hct⟩
  · intro i hi j
    rw [hbits i (by omega) j]
    -- the ancestor of a leaf two levels up is the parent of its ancestor one level up
    have hpow (k : Nat) : k / 4 ^ (s.subtreeLevels - 1 - i) =
        k / 4 ^ (s.subtreeLevels - 1 - (i + 1)) / 4 := by
      have hdepth : s.subtreeLevels - 1 - i = s.subtreeLevels - 1 - (i + 1) + 1 := by omega
      rw [hdepth, Nat.pow_succ, Nat.div_div_eq_div_mul]
    constructor
    · rintro ⟨k, hk, rfl⟩
      refine ⟨k / 4 ^ (s.subtreeLevels - 1 - (i + 1)) % 4, Nat.mod_lt _ (by decide), ?_⟩
      rw [hbits (i + 1) hi]
      exact ⟨k, hk, by rw [hpow, Nat.div_add_mod]⟩
    · rintro ⟨q, hq, hset⟩
      obtain ⟨k, hk, hkq⟩ := (hbits (i + 1) hi _).1 hset
      exact ⟨k, hk, by rw [hpow, hkq]; omega⟩
  · intro c
    rw [hchildren, Availability.get_row_empty]

end Store

end ImplicitTiling
