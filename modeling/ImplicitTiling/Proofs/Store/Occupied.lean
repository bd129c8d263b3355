import ImplicitTiling.Proofs.Availability.Reduction
import ImplicitTiling.Proofs.Store.Nodes
import ImplicitTiling.Proofs.Subtree.Merging

/-!
# What the store builds

`Occupied` says of a node that some tile of the last level below it exists, and that so does every
tile between that one and a given level, down to the roots of the deepest rank. `IsBuilt` says bit by
bit what the subtree below a node is; there is only one such subtree (`IsBuilt.unique`).

The steps of the store fit: nothing is built where the node does not exist (`isBuilt_empty`),
the leaves of the deepest rank make its subtree (`exists_isBuilt_deepest`), four quadrants make
theirs (`IsBuilt.join`), and so do the ranks below (`IsBuilt.summarize`).
-/

namespace ImplicitTiling.Store

open Availability (exists_quadrant)
open Subtree (any_iff)

/-- Tile `leaf` of the last level exists, and so do the tiles above it on the levels from `top` to
the roots of the deepest rank. -/
def Reached (s : Schedule) (E : Node → Bool) (top leaf : Nat) : Prop :=
  E (.ofNat s.maxLevel leaf) = true ∧
    ∀ a, top ≤ a → a ≤ s.maxRankRoot → E (.ofNat a (leaf / 4 ^ (s.maxLevel - a))) = true

/-- Some tile of the last level below the node is reached from level `top` on. -/
def Occupied (s : Schedule) (E : Node → Bool) (top level index : Nat) : Prop :=
  ∃ leaf < 4 ^ s.maxLevel, leaf / 4 ^ (s.maxLevel - level) = index ∧ Reached s E top leaf

instance (s : Schedule) (E : Node → Bool) (top leaf : Nat) : Decidable (Reached s E top leaf) :=
  inferInstanceAs (Decidable (_ ∧ ∀ a, top ≤ a → a ≤ s.maxRankRoot → _))

instance (s : Schedule) (E : Node → Bool) (top level index : Nat) :
    Decidable (Occupied s E top level index) :=
  inferInstanceAs (Decidable (∃ leaf < 4 ^ s.maxLevel, _ ∧ _))

/-- The subtree of `levels` levels below the node of a level with a given Morton index. Child
subtrees and content are for the levels above and in the deepest rank, respectively. -/
structure IsBuilt (s : Schedule) (E : Node → Bool) (level index levels : Nat) (t : Subtree) :
    Prop where
  levels_eq : t.levels = levels
  tile : ∀ i < levels, ∀ j < 4 ^ i, ((t.tiles.row i).get j = true ↔
    Occupied s E level (level + i) (4 ^ i * index + j))
  child : ∀ c < 4 ^ levels, ((t.children.row 0).get c = true ↔
    level < s.maxRankRoot ∧ Occupied s E level (level + levels) (4 ^ levels * index + c))
  content_deepest : level = s.maxRankRoot → t.content = t.tiles
  content_above : level < s.maxRankRoot → t.content = .empty levels .pyramid

variable {s : Schedule} {E : Node → Bool}

/-! ## Nodes above one another -/

theorem four_pow_pos (n : Nat) : 0 < 4 ^ n :=
  Nat.pow_pos (by decide)

theorem div_of_below {leaf d i m j : Nat} (hi : i ≤ d) (hj : j < 4 ^ i)
    (h : leaf / 4 ^ (d - i) = 4 ^ i * m + j) : leaf / 4 ^ d = m := by
  have hd : d = (d - i) + i := by omega
  have hpos : 0 < 4 ^ i := four_pow_pos _
  rw [hd, Nat.pow_add, ← Nat.div_div_eq_div_mul, h, Nat.mul_add_div hpos, Nat.div_eq_of_lt hj,
    Nat.add_zero]

theorem not_occupied_of_false {k m i j : Nat} (hk : k ≤ s.maxRankRoot) (hki : k + i ≤ s.maxLevel)
    (hj : j < 4 ^ i) (hE : E (.ofNat k m) = false) :
    ¬ Occupied s E k (k + i) (4 ^ i * m + j) := by
  rintro ⟨leaf, -, hleaf, -, habove⟩
  have hanc : leaf / 4 ^ (s.maxLevel - k) = m := by
    apply div_of_below (i := i) (by omega) hj
    rw [← hleaf]
    congr 2
    omega
  have htrue := habove k (Nat.le_refl k) hk
  rw [hanc, hE] at htrue
  cases htrue

/-- Through a node that exists the same is reached as from one level further down. -/
theorem occupied_succ_iff {k m i j : Nat} (hki : k + i ≤ s.maxLevel) (hj : j < 4 ^ i)
    (hE : E (.ofNat k m) = true) :
    Occupied s E k (k + i) (4 ^ i * m + j) ↔ Occupied s E (k + 1) (k + i) (4 ^ i * m + j) := by
  constructor
  · rintro ⟨leaf, hlt, hleaf, hlast, habove⟩
    exact ⟨leaf, hlt, hleaf, hlast, fun a ha => habove a (Nat.le_of_succ_le ha)⟩
  · rintro ⟨leaf, hlt, hleaf, hlast, habove⟩
    refine ⟨leaf, hlt, hleaf, hlast, ?_⟩
    intro a ha hroot
    rcases Nat.eq_or_lt_of_le ha with rfl | ha
    · have hanc : leaf / 4 ^ (s.maxLevel - k) = m := by
        apply div_of_below (i := i) (by omega) hj
        rw [← hleaf]
        congr 2
        omega
      rw [hanc, hE]
    · exact habove a ha hroot

theorem occupied_iff_exists_child {top k m : Nat} (hk : k < s.maxLevel) :
    Occupied s E top k m ↔ ∃ q < 4, Occupied s E top (k + 1) (4 * m + q) := by
  have hpow (leaf : Nat) :
      leaf / 4 ^ (s.maxLevel - k) = leaf / 4 ^ (s.maxLevel - (k + 1)) / 4 := by
    have hd : s.maxLevel - k = (s.maxLevel - (k + 1)) + 1 := by omega
    rw [hd, Nat.pow_succ, Nat.div_div_eq_div_mul]
  constructor
  · rintro ⟨leaf, hlt, hleaf, hreached⟩
    rw [hpow] at hleaf
    exact ⟨leaf / 4 ^ (s.maxLevel - (k + 1)) % 4, Nat.mod_lt _ (by decide), leaf, hlt, by omega,
      hreached⟩
  · rintro ⟨q, hq, leaf, hlt, hleaf, hreached⟩
    refine ⟨leaf, hlt, ?_, hreached⟩
    rw [hpow, hleaf]
    omega

theorem Occupied.mono {top top' level index : Nat} (h : Occupied s E top level index)
    (hle : top ≤ top') : Occupied s E top' level index := by
  obtain ⟨leaf, hlt, hleaf, hlast, habove⟩ := h
  exact ⟨leaf, hlt, hleaf, hlast, fun a ha => habove a (Nat.le_trans hle ha)⟩

theorem div_div_levels {last level level' : Nat} (leaf : Nat) (hle : level' ≤ level)
    (hlast : level ≤ last) :
    leaf / 4 ^ (last - level') = leaf / 4 ^ (last - level) / 4 ^ (level - level') := by
  rw [Nat.div_div_eq_div_mul, ← Nat.pow_add]
  congr 2
  omega

theorem Occupied.above {top level level' index : Nat} (h : Occupied s E top level index)
    (hle : level' ≤ level) (hlast : level ≤ s.maxLevel) :
    Occupied s E top level' (index / 4 ^ (level - level')) := by
  obtain ⟨leaf, hlt, rfl, hreached⟩ := h
  exact ⟨leaf, hlt, div_div_levels leaf hle hlast, hreached⟩

theorem Occupied.below {level level' index index' : Nat} (h : Occupied s E 0 level index)
    (h' : Occupied s E level level' index') (hle : level ≤ level') (hlast : level' ≤ s.maxLevel)
    (hindex : index' / 4 ^ (level' - level) = index) :
    Occupied s E 0 level' index' := by
  obtain ⟨leaf, -, hleaf, -, habove⟩ := h
  obtain ⟨leaf', hlt', hleaf', hlast', habove'⟩ := h'
  refine ⟨leaf', hlt', hleaf', hlast', fun a _ ha => ?_⟩
  rcases Nat.le_total level a with hla | hal
  · exact habove' a hla ha
  · -- above the node both leaves have the same ancestors
    have hsame : leaf' / 4 ^ (s.maxLevel - a) = leaf / 4 ^ (s.maxLevel - a) := by
      rw [div_div_levels leaf' hal (Nat.le_trans hle hlast), div_div_levels leaf hal (by omega),
        hleaf, div_div_levels leaf' hle hlast, hleaf', hindex]
    rw [hsame]
    exact habove a (Nat.zero_le a) ha

/-! ## Only one subtree -/

theorem IsBuilt.unique {level index levels : Nat} (hl : level ≤ s.maxRankRoot) {t t' : Subtree}
    (h : IsBuilt s E level index levels t) (h' : IsBuilt s E level index levels t') : t = t' := by
  have htiles : t.tiles = t'.tiles := by
    apply Availability.ext_pyramid t.tiles_topology t'.tiles_topology
    · rw [t.tiles_levels, t'.tiles_levels, h.levels_eq, h'.levels_eq]
    · intro i hi j hj
      rw [t.tiles_levels, h.levels_eq] at hi
      exact Bool.eq_iff_iff.2 ((h.tile i hi j hj).trans (h'.tile i hi j hj).symm)
  apply Subtree.levels_ext htiles
  · rcases Nat.eq_or_lt_of_le hl with hl | hl
    · rw [h.content_deepest hl, h'.content_deepest hl, htiles]
    · rw [h.content_above hl, h'.content_above hl]
  · apply Availability.ext_children t.children_topology t'.children_topology
    · rw [t.children_length, t'.children_length, h.levels_eq, h'.levels_eq]
    · intro c hc
      rw [t.children_length, h.levels_eq] at hc
      exact Bool.eq_iff_iff.2 ((h.child c hc).trans (h'.child c hc).symm)

/-! ## The steps of the store -/

theorem isBuilt_empty {level index levels : Nat} (hl : level ≤ s.maxRankRoot)
    (hlast : level + levels ≤ s.maxLevel + 1)
    (hrank : level < s.maxRankRoot → level + levels ≤ s.maxLevel)
    (hE : E (.ofNat level index) = false) : IsBuilt s E level index levels (.empty levels) where
  levels_eq := rfl
  tile i hi j hj := by
    have hno := not_occupied_of_false hl (by omega) hj hE
    show ((Availability.empty levels .pyramid).row i).get j = true ↔ _
    rw [Availability.get_row_empty]
    simp [hno]
  child c hc := by
    show ((Availability.empty levels .children).row 0).get c = true ↔ _
    rw [Availability.get_row_empty]
    constructor
    · intro h
      cases h
    · rintro ⟨hlt, hocc⟩
      exact absurd hocc (not_occupied_of_false hl (hrank hlt) hc hE)
  content_deepest _ := rfl
  content_above _ := rfl

/-- A node in a quadrant is reached from the quadrant as from its parent, if that exists. -/
theorem occupied_quadrant_iff {level index i q r : Nat} (hlast : level + 1 + i ≤ s.maxLevel)
    (hq : q < 4) (hr : r < 4 ^ i) (hE : E (.ofNat level index) = true) :
    Occupied s E (level + 1) (level + 1 + i) (4 ^ i * (4 * index + q) + r) ↔
      Occupied s E level (level + (i + 1)) (4 ^ (i + 1) * index + (q * 4 ^ i + r)) := by
  have hj : q * 4 ^ i + r < 4 ^ (i + 1) := by
    have hle : (q + 1) * 4 ^ i ≤ 4 * 4 ^ i := Nat.mul_le_mul_right _ hq
    rw [Nat.succ_mul] at hle
    rw [Nat.pow_succ]
    omega
  have hindex : 4 ^ (i + 1) * index + (q * 4 ^ i + r) = 4 ^ i * (4 * index + q) + r := by
    rw [Nat.mul_add, Nat.pow_succ, Nat.mul_assoc, Nat.mul_comm (4 ^ i) q, Nat.add_assoc]
  have hlevel : level + (i + 1) = level + 1 + i := by omega
  rw [occupied_succ_iff (by omega) hj hE, hindex, hlevel]

theorem occupied_child_iff {level index q : Nat} (hlast : level + 1 ≤ s.maxLevel) (hq : q < 4)
    (hE : E (.ofNat level index) = true) :
    Occupied s E (level + 1) (level + 1) (4 * index + q) ↔
      Occupied s E level (level + 1) (4 * index + q) := by
  have h := occupied_quadrant_iff (i := 0) (r := 0) hlast hq Nat.one_pos hE
  simp only [Nat.pow_zero, Nat.pow_one, Nat.zero_add, Nat.one_mul, Nat.mul_one, Nat.add_zero] at h
  exact h

theorem occupied_root_iff {level index : Nat} (hlast : level + 1 ≤ s.maxLevel)
    (hE : E (.ofNat level index) = true) : Occupied s E level level index ↔
      ∃ q < 4, Occupied s E (level + 1) (level + 1) (4 * index + q) := by
  rw [occupied_iff_exists_child hlast]
  constructor
  · rintro ⟨q, hq, hocc⟩
    exact ⟨q, hq, (occupied_child_iff hlast hq hE).2 hocc⟩
  · rintro ⟨q, hq, hocc⟩
    exact ⟨q, hq, (occupied_child_iff hlast hq hE).1 hocc⟩

theorem IsBuilt.isAvailable_iff {level index levels : Nat} {t : Subtree}
    (h : IsBuilt s E level index levels t) (h1 : 1 ≤ levels) :
    t.tiles.isAvailable = true ↔ Occupied s E level level index := by
  have hroot := h.tile 0 h1 0 (by decide)
  rw [Nat.pow_zero, Nat.one_mul, Nat.add_zero, Nat.add_zero] at hroot
  exact hroot

/-- Four quadrants inside a rank make the subtree above them. -/
theorem IsBuilt.join {level index levels : Nat} {parts : List Subtree} {t : Subtree}
    (ht : Subtree.IsJoin parts levels t) (h4 : parts.length = 4) (h1 : 1 ≤ levels)
    (hl : level + 1 < s.maxRankRoot) (hlast : level + 1 + levels ≤ s.maxLevel)
    (hE : E (.ofNat level index) = true)
    (h : ∀ q (hq : q < 4), IsBuilt s E (level + 1) (4 * index + q) levels parts[q]) :
    IsBuilt s E level index (levels + 1) t where
  levels_eq := ht.levels_eq
  tile i hi j hj := by
    cases i with
    | zero =>
      obtain rfl : j = 0 := Nat.lt_one_iff.1 hj
      rw [ht.tile_root, any_iff h4, Nat.pow_zero, Nat.one_mul, Nat.add_zero, Nat.add_zero,
        occupied_root_iff (by omega) hE]
      constructor
      · rintro ⟨q, hq, hroot⟩
        exact ⟨q, hq, ((h q hq).isAvailable_iff h1).1 hroot⟩
      · rintro ⟨q, hq, hocc⟩
        exact ⟨q, hq, ((h q hq).isAvailable_iff h1).2 hocc⟩
    | succ i =>
      obtain ⟨q, hq, r, hr, rfl, -⟩ := exists_quadrant index hj
      rw [ht.tile_below i (by omega) q (by omega) r hr, (h q hq).tile i (by omega) r hr]
      exact occupied_quadrant_iff (by omega) hq hr hE
  child c hc := by
    obtain ⟨q, hq, r, hr, rfl, -⟩ := exists_quadrant index hc
    rw [ht.child q (by omega) r hr, (h q hq).child r hr,
      occupied_quadrant_iff hlast hq hr hE]
    constructor
    · exact fun hocc => ⟨by omega, hocc.2⟩
    · exact fun hocc => ⟨hl, hocc.2⟩
  content_deepest heq := absurd heq (by omega)
  content_above _ := ht.content_eq_empty h4 fun q hq => (h q hq).content_above hl

/-- The subtree has the levels of a rank, and its root is set if the node is reached. The ranks above
ask no more of it. -/
structure HasRoot (s : Schedule) (E : Node → Bool) (level index : Nat) (sub : Subtree) : Prop where
  levels_eq : sub.levels = s.subtreeLevels
  isAvailable_iff : sub.tiles.isAvailable = true ↔ Occupied s E level level index

theorem IsBuilt.hasRoot (hs : s.Valid) {level index : Nat} {sub : Subtree}
    (h : IsBuilt s E level index s.subtreeLevels sub) : HasRoot s E level index sub :=
  ⟨h.levels_eq, h.isAvailable_iff hs.levels_pos⟩

/-- The ranks below a node on the last level of its rank make the subtree of that one level. -/
theorem IsBuilt.summarize {level index : Nat} {rs : List Subtree} {joined t : Subtree}
    (hjoin : Subtree.IsJoin rs 1 joined) (ht : Subtree.IsSummary joined t) (h4 : rs.length = 4)
    (hl : level < s.maxRankRoot) (hlast : level + 1 ≤ s.maxLevel)
    (hE : E (.ofNat level index) = true)
    (h : ∀ q (hq : q < 4), ∃ sub, HasRoot s E (level + 1) (4 * index + q) sub ∧
      Subtree.IsSummary sub rs[q]) :
    IsBuilt s E level index 1 t := by
  have hroot (q : Nat) (hq : q < 4) : (rs[q].tiles.row 0).get 0 = true ↔
      Occupied s E (level + 1) (level + 1) (4 * index + q) := by
    obtain ⟨sub, hsub, hr⟩ := h q hq
    rw [hr.tile]
    exact hsub.isAvailable_iff
  refine ⟨ht.levels_eq, ?_, ?_, fun heq => absurd heq (by omega),
    fun _ => ht.content_eq_empty hjoin.content_root⟩
  · intro i hi j hj
    obtain rfl : i = 0 := Nat.lt_one_iff.1 hi
    obtain rfl : j = 0 := Nat.lt_one_iff.1 hj
    rw [ht.tile, hjoin.tile_root, any_iff h4, Nat.pow_zero, Nat.one_mul, Nat.add_zero,
      Nat.add_zero, occupied_root_iff hlast hE]
    constructor
    · rintro ⟨q, hq, hr⟩
      exact ⟨q, hq, (hroot q hq).1 hr⟩
    · rintro ⟨q, hq, hocc⟩
      exact ⟨q, hq, (hroot q hq).2 hocc⟩
  · intro c hc
    have hbelow := hjoin.tile_below 0 (by decide) c (by omega) 0 (by decide)
    rw [Nat.pow_zero, Nat.mul_one, Nat.add_zero c] at hbelow
    rw [ht.child, if_pos (Nat.le_of_eq hjoin.levels_eq.symm), hbelow, hroot c hc, Nat.pow_one,
      occupied_child_iff hlast hc hE]
    exact ⟨fun hocc => ⟨hl, hocc⟩, And.right⟩

/-- Leaf `k` below a root of the deepest rank, by its index there and by its own. -/
theorem div_leaf {depth i index k : Nat} (hi : i ≤ depth) :
    (4 ^ depth * index + k) / 4 ^ (depth - i) = 4 ^ i * index + k / 4 ^ (depth - i) := by
  have hpow : 4 ^ depth = 4 ^ (depth - i) * 4 ^ i := by
    rw [← Nat.pow_add]
    congr 1
    omega
  rw [hpow, Nat.mul_assoc, Nat.mul_add_div (four_pow_pos _)]

theorem occupied_deepest_iff (hs : s.Valid) {index i j : Nat} (hindex : index < 4 ^ s.maxRankRoot)
    (hi : i ≤ s.subtreeLevels - 1) (hj : j < 4 ^ i)
    (hE : E (.ofNat s.maxRankRoot index) = true) :
    Occupied s E s.maxRankRoot (s.maxRankRoot + i) (4 ^ i * index + j) ↔
      ∃ k < 4 ^ (s.subtreeLevels - 1), k / 4 ^ (s.subtreeLevels - 1 - i) = j ∧
        E (.ofNat s.maxLevel (4 ^ (s.subtreeLevels - 1) * index + k)) = true := by
  have hpos := hs.levels_pos
  have hlast : s.maxLevel = s.maxRankRoot + (s.subtreeLevels - 1) := hs.maxRankRoot_add_pred.symm
  have hdepth : s.maxLevel - (s.maxRankRoot + i) = s.subtreeLevels - 1 - i := by omega
  have hroot : s.maxLevel - s.maxRankRoot = s.subtreeLevels - 1 := by omega
  have hword : 0 < 4 ^ (s.subtreeLevels - 1) := four_pow_pos _
  constructor
  · rintro ⟨leaf, hlt, hleaf, hE', -⟩
    rw [hdepth] at hleaf
    have hanc := div_of_below hi hj hleaf
    have hsplit : 4 ^ (s.subtreeLevels - 1) * index + leaf % 4 ^ (s.subtreeLevels - 1) = leaf := by
      rw [← hanc, Nat.div_add_mod]
    refine ⟨leaf % 4 ^ (s.subtreeLevels - 1), Nat.mod_lt _ hword, ?_, ?_⟩
    · rw [← hsplit, div_leaf hi] at hleaf
      omega
    · rw [hsplit]
      exact hE'
  · rintro ⟨k, hk, hkj, hE'⟩
    refine ⟨4 ^ (s.subtreeLevels - 1) * index + k, ?_, ?_, hE', ?_⟩
    · rw [hlast]
      exact Node.descendant_lt hindex hk
    · rw [hdepth, div_leaf hi, hkj]
    · intro a ha ha'
      obtain rfl : a = s.maxRankRoot := by omega
      rw [hroot, Nat.mul_add_div hword, Nat.div_eq_of_lt hk, Nat.add_zero]
      exact hE

/-- Leaves of the deepest rank make a subtree in which a tile exists when a leaf below it does, every
tile has content, and no child subtree follows. -/
theorem exists_ofLeaves (hs : s.Valid) {leaves : Bitset}
    (hsize : leaves.size = 4 ^ (s.subtreeLevels - 1)) :
    ∃ tiles t,
      Availability.ofTileLeaves leaves (4 ^ (s.subtreeLevels - 1)) = .ok tiles ∧
      Availability.ofContentLeaves leaves (4 ^ (s.subtreeLevels - 1)) s.minContentLevel =
        .ok tiles ∧
      Subtree.ofParts tiles tiles (.empty s.subtreeLevels .children) s.subtreeLevels = .ok t ∧
      t.levels = s.subtreeLevels ∧ t.content = t.tiles ∧
      t.children = .empty s.subtreeLevels .children ∧
      ∀ i < s.subtreeLevels, ∀ j, (t.tiles.row i).get j = true ↔
        ∃ k, leaves.get k = true ∧ k / 4 ^ (s.subtreeLevels - 1 - i) = j := by
  have hpos := hs.levels_pos
  have hlevels : s.subtreeLevels - 1 + 1 = s.subtreeLevels := by omega
  obtain ⟨tiles, htiles, htt, htl, htb⟩ := Availability.reduce_eq_ok hsize fun _ => true
  obtain ⟨content, hcontent, hct, hcl, hcb⟩ := Availability.reduce_eq_ok hsize
    fun level => decide (s.minContentLevel ≤ (level : Int) + 1)
  rw [hlevels] at htl hcl
  have hkeep (level : Nat) : decide (s.minContentLevel ≤ (level : Int) + 1) = true := by
    have := hs.minContentLevel_le
    rw [decide_eq_true_eq]
    omega
  obtain rfl : content = tiles := by
    apply Availability.ext_pyramid hct htt (hcl.trans htl.symm)
    intro i hi j hj
    rw [hcl] at hi
    rw [Bool.eq_iff_iff, hcb i (by omega) j, htb i (by omega) j]
    exact and_congr_left fun _ => ⟨fun _ _ _ _ => rfl, fun _ level _ _ => hkeep level⟩
  refine ⟨content, _, htiles, hcontent, Subtree.ofParts_eq_ok htt htt rfl htl htl rfl, rfl, rfl, rfl,
    fun i hi j => ?_⟩
  rw [htb i (by omega) j]
  exact ⟨And.right, fun h => ⟨fun _ _ _ => rfl, h⟩⟩

/-- Leaves that were found below a root of the deepest rank make its subtree. -/
theorem exists_isBuilt_deepest (hs : s.Valid) {index : Nat} (hindex : index < 4 ^ s.maxRankRoot)
    (hE : E (.ofNat s.maxRankRoot index) = true) {leaves : Bitset}
    (hsize : leaves.size = 4 ^ (s.subtreeLevels - 1))
    (hleaves : ∀ k < 4 ^ (s.subtreeLevels - 1),
      leaves.get k = E (.ofNat s.maxLevel (4 ^ (s.subtreeLevels - 1) * index + k))) :
    ∃ tiles t,
      Availability.ofTileLeaves leaves (4 ^ (s.subtreeLevels - 1)) = .ok tiles ∧
      Availability.ofContentLeaves leaves (4 ^ (s.subtreeLevels - 1)) s.minContentLevel =
        .ok tiles ∧
      Subtree.ofParts tiles tiles (.empty s.subtreeLevels .children) s.subtreeLevels = .ok t ∧
      IsBuilt s E s.maxRankRoot index s.subtreeLevels t := by
  obtain ⟨tiles, t, htiles, hcontent, ht, hlevels, hct, hchildren, hbits⟩ :=
    exists_ofLeaves hs hsize
  refine ⟨tiles, t, htiles, hcontent, ht, hlevels, ?_, ?_, fun _ => hct,
    fun hlt => absurd hlt (Nat.lt_irrefl _)⟩
  · intro i hi j hj
    rw [hbits i hi j, occupied_deepest_iff hs hindex (by omega) hj hE]
    constructor
    · rintro ⟨k, hk, hkj⟩
      have hlt : k < 4 ^ (s.subtreeLevels - 1) := hsize ▸ Bitset.get_lt hk
      exact ⟨k, hlt, hkj, (hleaves k hlt).symm.trans hk⟩
    · rintro ⟨k, hlt, hkj, hk⟩
      exact ⟨k, (hleaves k hlt).trans hk, hkj⟩
  · intro c hc
    rw [hchildren, Availability.get_row_empty]
    constructor
    · intro h
      cases h
    · rintro ⟨hlt, -⟩
      exact absurd hlt (Nat.lt_irrefl _)

end ImplicitTiling.Store
