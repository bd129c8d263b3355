import ImplicitTiling.Proofs.Morton
import ImplicitTiling.Store.Basic

/-!
# Nodes and ranks by plain arithmetic

Within the levels that a schedule may have, Morton indices stay far below the end of their word, so
children and descendants of a node are found by plain arithmetic (`Node.child_ofNat`,
`Node.descendant_ofNat`). `Schedule.Valid.isRankRoot_iff` says the same of rank roots: each is some
number of whole ranks above the deepest.
-/

namespace ImplicitTiling

namespace Node

/-- The node of a level with a given Morton index. -/
def ofNat (level index : Nat) : Node :=
  ⟨level, index.toUInt64⟩

theorem four_pow_le_word {level : Nat} (h : level ≤ 32) : 4 ^ level ≤ 2 ^ 64 :=
  Nat.pow_le_pow_right (by decide : 0 < 4) h

theorem toNat_toUInt64 {index : Nat} (h : index < 2 ^ 64) : index.toUInt64.toNat = index :=
  Nat.mod_eq_of_lt h

theorem toNat_index_ofNat {level index : Nat} (hl : level ≤ 32) (hi : index < 4 ^ level) :
    (ofNat level index).index.toNat = index :=
  toNat_toUInt64 (Nat.lt_of_lt_of_le hi (four_pow_le_word hl))

theorem ofNat_toNat (n : Node) : ofNat n.level n.index.toNat = n := by
  obtain ⟨level, index⟩ := n
  show Node.mk level (UInt64.ofNat index.toNat) = _
  rw [UInt64.ofNat_toNat]

theorem ofNat_inj {level level' index index' : Nat} (hl : level ≤ 32) (hi : index < 4 ^ level)
    (hi' : index' < 4 ^ level') (h : ofNat level index = ofNat level' index') :
    level = level' ∧ index = index' := by
  injection h with h1 h2
  subst h1
  have hle := four_pow_le_word hl
  refine ⟨rfl, ?_⟩
  rw [← toNat_toUInt64 (Nat.lt_of_lt_of_le hi hle), h2,
    toNat_toUInt64 (Nat.lt_of_lt_of_le hi' hle)]

theorem child_lt {level index q : Nat} (hi : index < 4 ^ level) (hq : q < 4) :
    4 * index + q < 4 ^ (level + 1) := by
  rw [Nat.pow_succ]
  omega

theorem descendant_lt {level depth index i : Nat} (hi : index < 4 ^ level) (h : i < 4 ^ depth) :
    4 ^ depth * index + i < 4 ^ (level + depth) := by
  have hle : 4 ^ depth * (index + 1) ≤ 4 ^ depth * 4 ^ level := Nat.mul_le_mul_left _ hi
  rw [Nat.mul_succ] at hle
  rw [Nat.add_comm level, Nat.pow_add]
  omega

/-- The children of index `m` are `4 m` to `4 m + 3`. -/
theorem toNat_child {level : Nat} {m q : UInt64} (hl : level < 32) (hm : m.toNat < 4 ^ level)
    (hq : q.toNat < 4) : (Morton.child m q).toNat = 4 * m.toNat + q.toNat := by
  have hchild : 4 * m.toNat + q.toNat < 2 ^ 64 :=
    Nat.lt_of_lt_of_le (child_lt hm hq) (four_pow_le_word hl)
  have hshift : m.toNat <<< 2 = 4 * m.toNat := by
    rw [Nat.shiftLeft_eq]
    omega
  rw [Morton.child, UInt64.toNat_or, UInt64.toNat_shiftLeft]
  show m.toNat <<< 2 % 2 ^ 64 ||| q.toNat = _
  rw [Nat.mod_eq_of_lt (by omega), ← Nat.shiftLeft_add_eq_or_of_lt (by omega : q.toNat < 2 ^ 2),
    hshift]

/-- The descendants of index `m` are the indices from `4 ^ depth * m` on. -/
theorem toNat_descendant {level depth : Nat} {m i : UInt64} (hd : depth < 32)
    (hl : level + depth ≤ 32) (hm : m.toNat < 4 ^ level) (hi : i.toNat < 4 ^ depth) :
    (Morton.firstDescendant m depth + i).toNat = 4 ^ depth * m.toNat + i.toNat := by
  have hlt : 4 ^ depth * m.toNat + i.toNat < 2 ^ 64 :=
    Nat.lt_of_lt_of_le (descendant_lt hm hi) (four_pow_le_word hl)
  have hshift : (2 * depth).toUInt64.toNat % 64 = 2 * depth := by
    have : (2 * depth).toUInt64.toNat = 2 * depth := toNat_toUInt64 (by omega)
    omega
  have hpow : m.toNat <<< (2 * depth) = 4 ^ depth * m.toNat := by
    rw [Nat.shiftLeft_eq, Nat.pow_mul, Nat.mul_comm]
  rw [Morton.firstDescendant, UInt64.toNat_add, UInt64.toNat_shiftLeft, hshift, hpow,
    Nat.mod_add_mod, Nat.mod_eq_of_lt hlt]

theorem toNat_firstDescendant {level depth : Nat} {m : UInt64} (hd : depth < 32)
    (hl : level + depth ≤ 32) (hm : m.toNat < 4 ^ level) :
    (Morton.firstDescendant m depth).toNat = 4 ^ depth * m.toNat := by
  have h := toNat_descendant hd hl hm (i := 0) (Nat.pow_pos (by decide))
  rwa [UInt64.add_zero] at h

theorem child_ofNat {level index q : Nat} (hl : level < 32) (hi : index < 4 ^ level) (hq : q < 4) :
    (ofNat level index).child q.toUInt64 = ofNat (level + 1) (4 * index + q) := by
  have hindex : index.toUInt64.toNat = index := toNat_index_ofNat (Nat.le_of_lt hl) hi
  have hq64 : q.toUInt64.toNat = q := toNat_toUInt64 (by omega)
  show Node.mk (level + 1) (Morton.child index.toUInt64 q.toUInt64) =
    Node.mk (level + 1) (4 * index + q).toUInt64
  congr 1
  apply UInt64.toNat_inj.1
  rw [toNat_child hl (by rwa [hindex]) (by rwa [hq64]), hindex, hq64,
    toNat_toUInt64 (Nat.lt_of_lt_of_le (child_lt hi hq) (four_pow_le_word hl))]

theorem descendant_ofNat {level depth index i : Nat} (hl : level + depth < 32)
    (hi : index < 4 ^ level) (h : i < 4 ^ depth) :
    (ofNat level index).descendant depth i =
      ofNat (level + depth) (4 ^ depth * index + i) := by
  have hindex : index.toUInt64.toNat = index := toNat_index_ofNat (by omega) hi
  have hi64 : i.toUInt64.toNat = i :=
    toNat_toUInt64 (Nat.lt_of_lt_of_le h (four_pow_le_word (by omega)))
  show Node.mk (level + depth) (Morton.firstDescendant index.toUInt64 depth + i.toUInt64) =
    Node.mk (level + depth) (4 ^ depth * index + i).toUInt64
  congr 1
  apply UInt64.toNat_inj.1
  rw [toNat_descendant (by omega) (Nat.le_of_lt hl) (by rwa [hindex]) (by rwa [hi64]), hindex, hi64,
    toNat_toUInt64 (Nat.lt_of_lt_of_le (descendant_lt hi h) (four_pow_le_word (Nat.le_of_lt hl)))]

/-- A node whose index is of its level is named by its coordinates as well. -/
theorem node_tile {n : Node} (h : n.index.toNat < 4 ^ n.level) : n.tile.node = n := by
  obtain ⟨level, index⟩ := n
  show Node.mk level (Morton.interleave (Morton.deinterleave index level).1
    (Morton.deinterleave index level).2 level) = _
  rw [Morton.interleave_deinterleave h]

theorem inLevel_tile (n : Node) : Store.inLevel n.tile = true :=
  Store.inLevel_eq_true_iff.2 (Morton.deinterleave_lt n.index n.level)

theorem index_ofNat_lt {level index : Nat} (hl : level ≤ 32) (hi : index < 4 ^ level) :
    (ofNat level index).index.toNat < 4 ^ (ofNat level index).level :=
  Nat.lt_of_le_of_lt (Nat.le_of_eq (toNat_index_ofNat hl hi)) hi

theorem toNat_morton_tile {level index : Nat} (hl : level ≤ 32) (hi : index < 4 ^ level) :
    (ofNat level index).tile.morton.toNat = index :=
  (congrArg (fun n => n.index.toNat) (node_tile (index_ofNat_lt hl hi))).trans
    (toNat_index_ofNat hl hi)

end Node

theorem Tile.node_eq_ofNat (t : Tile) : t.node = Node.ofNat t.level t.morton.toNat :=
  (Node.ofNat_toNat t.node).symm

theorem Tile.morton_lt (t : Tile) : t.morton.toNat < 4 ^ t.level :=
  Morton.interleave_lt t.x t.y t.level

/-- A tile of its level is named by its Morton index as well. -/
theorem Tile.tile_node {t : Tile} (h : Store.inLevel t = true) : t.node.tile = t := by
  obtain ⟨level, x, y⟩ := t
  obtain ⟨hx, hy⟩ := Store.inLevel_eq_true_iff.1 h
  show (⟨level, (Morton.deinterleave (Morton.interleave x y level) level).1,
    (Morton.deinterleave (Morton.interleave x y level) level).2⟩ : Tile) = _
  rw [Morton.deinterleave_interleave hx hy]

/-- Tiles of one level with the same Morton index are the same. -/
theorem Tile.eq_of_morton {t t' : Tile} (h : Store.inLevel t = true)
    (h' : Store.inLevel t' = true) (hlevel : t.level = t'.level)
    (hmorton : t.morton.toNat = t'.morton.toNat) : t = t' := by
  have hnode : t.node = t'.node := by
    rw [t.node_eq_ofNat, t'.node_eq_ofNat, hlevel, hmorton]
  rw [← t.tile_node h, hnode, t'.tile_node h']

theorem Tile.exists_of_morton {level index : Nat} (hl : level ≤ 32) (hi : index < 4 ^ level) :
    ∃ t : Tile, t.level = level ∧ Store.inLevel t = true ∧ t.morton.toNat = index :=
  ⟨(Node.ofNat level index).tile, rfl, Node.inLevel_tile _,
    Node.toNat_morton_tile hl hi⟩

theorem Schedule.dvd_of_isRankRoot {s : Schedule} {level : Nat} (h : s.isRankRoot level = true) :
    s.subtreeLevels ∣ level := by
  unfold isRankRoot at h
  rw [Bool.and_eq_true, beq_iff_eq] at h
  exact Nat.dvd_of_mod_eq_zero h.2

namespace Schedule.Valid

variable {s : Schedule}

theorem dvd_maxLevel (h : s.Valid) : s.subtreeLevels ∣ s.maxLevel + 1 := by
  have hmin := Nat.dvd_of_mod_eq_zero h.min_dvd
  have hspan := Nat.dvd_of_mod_eq_zero h.span_dvd
  have hle := h.min_le_max
  have heq : s.maxLevel + 1 = s.minLevel + (s.maxLevel - s.minLevel + 1) := by omega
  rw [heq]
  exact Nat.dvd_add hmin hspan

theorem subtreeLevels_le_span (h : s.Valid) :
    s.subtreeLevels ≤ s.maxLevel - s.minLevel + 1 :=
  Nat.le_of_dvd (Nat.succ_pos _) (Nat.dvd_of_mod_eq_zero h.span_dvd)

/-- The deepest rank ends with the last level. -/
theorem maxRankRoot_add (h : s.Valid) : s.maxRankRoot + s.subtreeLevels = s.maxLevel + 1 := by
  have hspan := h.subtreeLevels_le_span
  have hle := h.min_le_max
  unfold maxRankRoot
  omega

/-- The leaves of the deepest rank are the tiles of the last level. -/
theorem maxRankRoot_add_pred (h : s.Valid) :
    s.maxRankRoot + (s.subtreeLevels - 1) = s.maxLevel := by
  have hadd := h.maxRankRoot_add
  have hpos := h.levels_pos
  omega

theorem maxRankRoot_le_maxLevel (h : s.Valid) : s.maxRankRoot ≤ s.maxLevel := by
  have hroot := h.maxRankRoot_add
  have hpos := h.levels_pos
  omega

theorem maxRankRoot_lt (h : s.Valid) : s.maxRankRoot < 32 :=
  Nat.lt_of_le_of_lt h.maxRankRoot_le_maxLevel h.max_lt

/-- The roots of the ranks are so many whole ranks above the deepest root. -/
theorem isRankRoot_iff (h : s.Valid) {level : Nat} : s.isRankRoot level = true ↔
    s.minLevel ≤ level ∧ level + s.ranksBelow level * s.subtreeLevels = s.maxRankRoot := by
  have hroot : s.subtreeLevels ∣ s.maxRankRoot := by
    have hadd := h.maxRankRoot_add
    have hdvd := h.dvd_maxLevel
    rw [← hadd] at hdvd
    exact (Nat.dvd_add_left (Nat.dvd_refl _)).1 hdvd
  unfold isRankRoot ranksBelow
  simp only [Bool.and_eq_true, decide_eq_true_eq, beq_iff_eq]
  constructor
  · rintro ⟨⟨hmin, hmax⟩, hmod⟩
    have hdvd := Nat.dvd_sub hroot (Nat.dvd_of_mod_eq_zero hmod)
    rw [Nat.div_mul_cancel hdvd]
    exact ⟨hmin, by omega⟩
  · rintro ⟨hmin, heq⟩
    have hdvd : s.subtreeLevels ∣ level := by
      rw [← heq] at hroot
      exact (Nat.dvd_add_left (Nat.dvd_mul_left _ _)).1 hroot
    exact ⟨⟨hmin, by omega⟩, Nat.mod_eq_zero_of_dvd hdvd⟩

theorem ranksBelow_eq (h : s.Valid) {level ranks : Nat}
    (heq : level + ranks * s.subtreeLevels = s.maxRankRoot) : s.ranksBelow level = ranks := by
  unfold ranksBelow
  rw [← heq, Nat.add_sub_cancel_left, Nat.mul_div_cancel _ h.levels_pos]

theorem isRankRoot_of_add (h : s.Valid) {level ranks : Nat} (hmin : s.minLevel ≤ level)
    (heq : level + ranks * s.subtreeLevels = s.maxRankRoot) : s.isRankRoot level = true := by
  rw [h.isRankRoot_iff, h.ranksBelow_eq heq]
  exact ⟨hmin, heq⟩

theorem le_maxRankRoot (h : s.Valid) {level : Nat} (hroot : s.isRankRoot level = true) :
    level ≤ s.maxRankRoot := by
  obtain ⟨-, hranks⟩ := h.isRankRoot_iff.1 hroot
  omega

theorem level_lt (h : s.Valid) {level : Nat} (hroot : s.isRankRoot level = true) : level < 32 :=
  Nat.lt_of_le_of_lt (h.le_maxRankRoot hroot) h.maxRankRoot_lt

/-- Another rank follows below every rank but the deepest. -/
theorem isRankRoot_next_iff (hs : s.Valid) {level : Nat} (h : s.isRankRoot level = true) :
    s.isRankRoot (level + s.subtreeLevels) = true ↔ level < s.maxRankRoot := by
  obtain ⟨hmin, hranks⟩ := hs.isRankRoot_iff.1 h
  have hpos := hs.levels_pos
  constructor
  · intro hnext
    have hle := hs.le_maxRankRoot hnext
    omega
  · intro hlt
    obtain ⟨ranks, hr⟩ : ∃ ranks, s.ranksBelow level = ranks + 1 :=
      Nat.exists_eq_succ_of_ne_zero fun hzero => by rw [hzero] at hranks; omega
    rw [hr, Nat.succ_mul] at hranks
    have hnext : level + s.subtreeLevels + ranks * s.subtreeLevels = s.maxRankRoot := by omega
    exact hs.isRankRoot_of_add (by omega) hnext

/-- From level 0 on there are as many ranks as whole numbers of them fit. -/
theorem rankCount_mul (hs : s.Valid) (hmin : s.minLevel = 0) :
    s.rankCount * s.subtreeLevels = s.maxLevel + 1 := by
  unfold rankCount
  rw [hmin, Nat.sub_zero]
  exact Nat.div_mul_cancel hs.dvd_maxLevel

/-- No level of the deepest rank is left without content. -/
theorem minContentLevel_le (h : s.Valid) : s.minContentLevel ≤ 1 := by
  have hspan := h.subtreeLevels_le_span
  have hle := h.min_le_max
  unfold minContentLevel
  omega

end Schedule.Valid

end ImplicitTiling
