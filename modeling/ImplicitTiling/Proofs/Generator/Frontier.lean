import ImplicitTiling.Generator.Walk
import ImplicitTiling.Proofs.Bitset.Members
import ImplicitTiling.Proofs.Store.History
import Mathlib.Data.List.Nodup

/-!
# Which rank roots a walk comes to

`Wanted` says of a tile that it is the root or a rank root below which something exists. The subtree
of a wanted rank root points to the wanted rank roots one rank further down and to nothing else
(`Wanted.get_child_iff`), and every wanted rank root but the root lies below one of the rank above
(`Wanted.exists_parent`). So waves that begin with the root hold the wanted rank roots of one rank
after another, each of them once: `isWave_root`, `IsWave.next`.
-/

namespace ImplicitTiling

theorem Subtree.lt_of_get_child {sub : Subtree} {i : Nat}
    (h : (sub.children.row 0).get i = true) : i < 4 ^ sub.levels := by
  rw [← sub.children_length, Availability.length_children sub.children_topology]
  exact Bitset.get_lt h

namespace Generator

open Store

variable {s : Schedule} {E : Node → Bool}

/-- The root, or a rank root below which a tile of the last level is reached from the root on. -/
def Wanted (s : Schedule) (E : Node → Bool) (t : Tile) : Prop :=
  t = ⟨0, 0, 0⟩ ∨ 0 < t.level ∧ s.isRankRoot t.level = true ∧ inLevel t = true ∧
    Occupied s E 0 t.level t.morton.toNat

/-- Bit `i` of the child subtrees of the subtree of `t` stands for `u`. -/
structure IsChildRoot (s : Schedule) (t : Tile) (i : Nat) (u : Tile) : Prop where
  lt : i < 4 ^ s.subtreeLevels
  level : u.level = t.level + s.subtreeLevels
  inLevel : inLevel u = true
  morton : u.morton.toNat = 4 ^ s.subtreeLevels * t.morton.toNat + i

theorem IsChildRoot.unique {t u u' : Tile} {i : Nat} (h : IsChildRoot s t i u)
    (h' : IsChildRoot s t i u') : u = u' :=
  Tile.eq_of_morton h.inLevel h'.inLevel (h.level.trans h'.level.symm)
    (h.morton.trans h'.morton.symm)

theorem IsChildRoot.morton_div {t u : Tile} {i : Nat} (h : IsChildRoot s t i u) :
    u.morton.toNat / 4 ^ s.subtreeLevels = t.morton.toNat := by
  rw [h.morton, Nat.mul_add_div (four_pow_pos _), Nat.div_eq_of_lt h.lt, Nat.add_zero]

/-- No two bits stand for the same rank root. -/
theorem IsChildRoot.parent_unique {t t' u : Tile} {i i' : Nat} (hin : Store.inLevel t = true)
    (hin' : Store.inLevel t' = true) (h : IsChildRoot s t i u) (h' : IsChildRoot s t' i' u) :
    t = t' ∧ i = i' := by
  obtain rfl : t = t' := by
    apply Tile.eq_of_morton hin hin'
    · exact Nat.add_right_cancel (h.level.symm.trans h'.level)
    · rw [← h.morton_div, h'.morton_div]
  exact ⟨rfl, Nat.add_left_cancel (h.morton.symm.trans h'.morton)⟩

theorem isChildRoot_descendant {t : Tile} {i : Nat} (hl : t.level + s.subtreeLevels < 32)
    (hi : i < 4 ^ s.subtreeLevels) :
    IsChildRoot s t i (t.node.descendant s.subtreeLevels i).tile := by
  have hlt := Node.descendant_lt t.morton_lt hi
  have hindex := Node.toNat_index_ofNat (Nat.le_of_lt hl) hlt
  have hfit := hindex.trans_lt hlt
  rw [t.node_eq_ofNat, Node.descendant_ofNat hl t.morton_lt hi]
  refine ⟨hi, rfl, Node.inLevel_tile _, ?_⟩
  exact (congrArg (fun n => n.index.toNat) (Node.node_tile hfit)).trans hindex

/-! ## From one rank to the next -/

theorem Wanted.isRankRoot (hmin : s.minLevel = 0) {t : Tile}
    (h : Wanted s E t) : s.isRankRoot t.level = true ∧ inLevel t = true := by
  rcases h with rfl | ⟨-, hroot, hin, -⟩
  · refine ⟨?_, rfl⟩
    simp [Schedule.isRankRoot, hmin]
  · exact ⟨hroot, hin⟩

theorem Wanted.level_pos {t : Tile} (h : Wanted s E t) (hne : t ≠ ⟨0, 0, 0⟩) : 0 < t.level := by
  rcases h with rfl | ⟨hpos, -⟩
  · exact absurd rfl hne
  · exact hpos

theorem Wanted.level_le (hs : s.Valid) (hmin : s.minLevel = 0) {t : Tile} (h : Wanted s E t) :
    t.level ≤ s.maxRankRoot :=
  hs.le_maxRankRoot (h.isRankRoot hmin).1

/-- The subtree of a wanted rank root points to those rank roots below it that are wanted. -/
theorem Wanted.get_child_iff (hs : s.Valid) (hmin : s.minLevel = 0) {t u : Tile} {i : Nat}
    {sub : Subtree} (h : Wanted s E t)
    (hsub : IsBuilt s E t.level t.morton.toNat s.subtreeLevels sub) (hu : IsChildRoot s t i u) :
    (sub.children.row 0).get i = true ↔ Wanted s E u := by
  obtain ⟨hroot, -⟩ := h.isRankRoot hmin
  have hpos := hs.levels_pos
  have hroots := hs.maxRankRoot_add
  rw [hsub.child i hu.lt, ← hs.isRankRoot_next_iff hroot, ← hu.level, ← hu.morton]
  constructor
  · rintro ⟨hnext, hocc⟩
    have hnext' : t.level < s.maxRankRoot := (hs.isRankRoot_next_iff hroot).1 (hu.level ▸ hnext)
    have hlast : u.level ≤ s.maxLevel := by
      rw [hu.level]
      omega
    have hlevel := hu.level
    refine .inr ⟨by omega, hnext, hu.inLevel, ?_⟩
    rcases h with rfl | ⟨-, -, -, hocc'⟩
    · exact hocc
    · refine hocc'.below hocc (by omega) hlast ?_
      rw [hu.level, Nat.add_sub_cancel_left]
      exact hu.morton_div
  · rintro (rfl | ⟨-, hnext, -, hocc⟩)
    · have hlevel : 0 = t.level + s.subtreeLevels := hu.level
      omega
    · exact ⟨hnext, hocc.mono (Nat.zero_le _)⟩

/-- Every wanted rank root but the root is one of those below a wanted one. -/
theorem Wanted.exists_parent (hs : s.Valid) (hmin : s.minLevel = 0) {u : Tile} (h : Wanted s E u)
    (hpos : 0 < u.level) : ∃ t i, Wanted s E t ∧ IsChildRoot s t i u := by
  obtain rfl | ⟨-, hroot, hin, hocc⟩ := h
  · exact absurd hpos (Nat.lt_irrefl 0)
  obtain ⟨-, hranks⟩ := hs.isRankRoot_iff.1 hroot
  have hlast := hs.maxRankRoot_le_maxLevel
  have hmax := hs.max_lt
  have hge : s.subtreeLevels ≤ u.level := Nat.le_of_dvd hpos (s.dvd_of_isRankRoot hroot)
  have hlt : u.morton.toNat / 4 ^ s.subtreeLevels < 4 ^ (u.level - s.subtreeLevels) := by
    apply Nat.div_lt_of_lt_mul
    rw [← Nat.pow_add, Nat.add_sub_cancel' hge]
    exact u.morton_lt
  obtain ⟨t, hlevel, hin', hmorton⟩ := Tile.exists_of_morton (by omega) hlt
  refine ⟨t, u.morton.toNat % 4 ^ s.subtreeLevels, ?_, Nat.mod_lt _ (four_pow_pos _), by omega,
    hin, by rw [hmorton, Nat.div_add_mod]⟩
  rcases Nat.eq_zero_or_pos t.level with hzero | hpos'
  · rw [← hlevel, hzero] at hlt
    exact .inl (Tile.eq_of_morton hin' rfl hzero (hmorton.trans (Nat.lt_one_iff.1 hlt)))
  · refine .inr ⟨hpos', ?_, hin', ?_⟩
    · have hranks' : t.level + (s.ranksBelow u.level + 1) * s.subtreeLevels = s.maxRankRoot := by
        rw [Nat.succ_mul]
        omega
      exact hs.isRankRoot_of_add (by omega) hranks'
    · have habove := hocc.above (Nat.sub_le u.level s.subtreeLevels) (by omega)
      rw [Nat.sub_sub_self hge] at habove
      rw [hlevel, hmorton]
      exact habove

/-- Between the root and a wanted rank root no rank is left out. -/
theorem Wanted.exists_above (hs : s.Valid) (hmin : s.minLevel = 0) {u : Tile} (h : Wanted s E u)
    {k j : Nat} (hlevel : u.level = j * s.subtreeLevels) (hk : k ≤ j) :
    ∃ t, Wanted s E t ∧ t.level = k * s.subtreeLevels := by
  induction hk generalizing u with
  | refl => exact ⟨u, h, hlevel⟩
  | @step j _ ih =>
    have hpos := hs.levels_pos
    rw [Nat.succ_mul] at hlevel
    obtain ⟨t, i, ht, hi⟩ := h.exists_parent hs hmin (by omega)
    exact ih ht (Nat.add_right_cancel (hi.level.symm.trans hlevel))

/-! ## Waves -/

theorem mem_childRoots (hs : s.Valid) (hmin : s.minLevel = 0) {t u : Tile} {sub : Subtree}
    (h : Wanted s E t) (hsub : IsBuilt s E t.level t.morton.toNat s.subtreeLevels sub) :
    u ∈ childRoots s t sub ↔ Wanted s E u ∧ ∃ i, IsChildRoot s t i u := by
  obtain ⟨hroot, -⟩ := h.isRankRoot hmin
  have hroots := hs.maxRankRoot_add
  have hmax := hs.max_lt
  unfold childRoots
  split
  · next hnext =>
    have hlt := (hs.isRankRoot_next_iff hroot).1 hnext
    have hdescendant {i : Nat} (hi : i < 4 ^ s.subtreeLevels) :=
      isChildRoot_descendant (s := s) (t := t) (by omega) hi
    rw [List.mem_map]
    constructor
    · rintro ⟨i, hmem, rfl⟩
      have hget := Bitset.mem_ones.1 hmem
      have hi : i < 4 ^ s.subtreeLevels := hsub.levels_eq ▸ Subtree.lt_of_get_child hget
      exact ⟨(h.get_child_iff hs hmin hsub (hdescendant hi)).1 hget, i, hdescendant hi⟩
    · rintro ⟨hu, i, hi⟩
      exact ⟨i, Bitset.mem_ones.2 ((h.get_child_iff hs hmin hsub hi).2 hu),
        (hdescendant hi.lt).unique hi⟩
  · next hnext =>
    refine iff_of_false (List.not_mem_nil) ?_
    rintro ⟨hu, i, hi⟩
    exact hnext (hi.level ▸ (hu.isRankRoot hmin).1)

theorem nodup_childRoots (hs : s.Valid) (hmin : s.minLevel = 0) {t : Tile} {sub : Subtree}
    (h : Wanted s E t) (hsub : IsBuilt s E t.level t.morton.toNat s.subtreeLevels sub) :
    (childRoots s t sub).Nodup := by
  obtain ⟨hroot, hin⟩ := h.isRankRoot hmin
  have hroots := hs.maxRankRoot_add
  have hmax := hs.max_lt
  unfold childRoots
  split
  · next hnext =>
    have hlt := (hs.isRankRoot_next_iff hroot).1 hnext
    have hones : (sub.children.row 0).ones.Nodup := by
      rw [Bitset.ones_eq_filter]
      exact List.nodup_range.filter _
    refine hones.map_on fun i hi j hj heq => ?_
    have hfit {i : Nat} (hi : i ∈ (sub.children.row 0).ones) : i < 4 ^ s.subtreeLevels :=
      hsub.levels_eq ▸ Subtree.lt_of_get_child (Bitset.mem_ones.1 hi)
    have hchild := isChildRoot_descendant (s := s) (t := t) (by omega) (hfit hi)
    rw [heq] at hchild
    exact (hchild.parent_unique hin hin (isChildRoot_descendant (by omega) (hfit hj))).2
  · exact List.nodup_nil

/-- The wanted roots of a rank, each of them once. -/
structure IsWave (s : Schedule) (E : Node → Bool) (k : Nat) (wave : List Tile) : Prop where
  nodup : wave.Nodup
  mem_iff : ∀ t, t ∈ wave ↔ Wanted s E t ∧ t.level = k * s.subtreeLevels

theorem isWave_root (s : Schedule) (E : Node → Bool) : IsWave s E 0 [⟨0, 0, 0⟩] where
  nodup := List.nodup_singleton _
  mem_iff t := by
    rw [List.mem_singleton, Nat.zero_mul]
    constructor
    · rintro rfl
      exact ⟨.inl rfl, rfl⟩
    · rintro ⟨rfl | ⟨hpos, -⟩, hlevel⟩
      · rfl
      · omega

/-- What the subtrees of a wave point to is the next wave. -/
theorem IsWave.next (hs : s.Valid) (hmin : s.minLevel = 0) {k : Nat} {wave : List Tile}
    (h : IsWave s E k wave) :
    IsWave s E (k + 1) (wave.flatMap fun t => childRoots s t (freshSubtree s E t)) := by
  have hbuilt {t : Tile} (ht : Wanted s E t) :
      IsBuilt s E t.level t.morton.toNat s.subtreeLevels (freshSubtree s E t) :=
    isBuilt_freshSubtree hs (ht.isRankRoot hmin).1 (ht.isRankRoot hmin).2
  have hmem {t u : Tile} (ht : Wanted s E t) := mem_childRoots (u := u) hs hmin ht (hbuilt ht)
  constructor
  · refine List.nodup_flatMap.2 ⟨fun t ht => ?_, h.nodup.imp_of_mem fun {t t'} ht ht' hne => ?_⟩
    · have ht := ((h.mem_iff t).1 ht).1
      exact nodup_childRoots hs hmin ht (hbuilt ht)
    · have ht := ((h.mem_iff t).1 ht).1
      have ht' := ((h.mem_iff t').1 ht').1
      intro u hu hu'
      obtain ⟨-, i, hi⟩ := (hmem ht).1 hu
      obtain ⟨-, i', hi'⟩ := (hmem ht').1 hu'
      exact hne (hi.parent_unique (ht.isRankRoot hmin).2 (ht'.isRankRoot hmin).2 hi').1
  · intro u
    rw [List.mem_flatMap]
    constructor
    · rintro ⟨t, ht, hu⟩
      obtain ⟨ht, hlevel⟩ := (h.mem_iff t).1 ht
      obtain ⟨hu, i, hi⟩ := (hmem ht).1 hu
      exact ⟨hu, by rw [hi.level, hlevel, Nat.succ_mul]⟩
    · rintro ⟨hu, hlevel⟩
      rw [Nat.succ_mul] at hlevel
      have hpos := hs.levels_pos
      obtain ⟨t, i, ht, hi⟩ := hu.exists_parent hs hmin (by omega)
      exact ⟨t, (h.mem_iff t).2 ⟨ht, Nat.add_right_cancel (hi.level.symm.trans hlevel)⟩,
        (hmem ht).2 ⟨hu, i, hi⟩⟩

/-! ## The whole walk -/

/-- The wanted rank roots from rank `k` on, each of them once, and the number of ranks that they
are of. -/
structure IsWalk (s : Schedule) (E : Node → Bool) (k : Nat) (visited : List Tile) (waves : Nat) :
    Prop where
  nodup : visited.Nodup
  mem_iff : ∀ t, t ∈ visited ↔ Wanted s E t ∧ k * s.subtreeLevels ≤ t.level
  lt_waves_iff : ∀ j, j < waves ↔ ∃ t ∈ visited, t.level = (k + j) * s.subtreeLevels

theorem Wanted.exists_rank (hs : s.Valid) (hmin : s.minLevel = 0) {t : Tile} (h : Wanted s E t) :
    ∃ j < s.rankCount, t.level = j * s.subtreeLevels := by
  have hcount := hs.rankCount_mul hmin
  have hle := h.level_le hs hmin
  have hroots := hs.maxRankRoot_add
  have hpos := hs.levels_pos
  obtain ⟨j, hj⟩ := s.dvd_of_isRankRoot (h.isRankRoot hmin).1
  rw [Nat.mul_comm] at hj
  refine ⟨j, Nat.lt_of_mul_lt_mul_right (a := s.subtreeLevels) ?_, hj⟩
  omega

/-- No wanted rank root lies below a rank without any. -/
theorem IsWave.isWalk_nil (hs : s.Valid) (hmin : s.minLevel = 0) {k : Nat}
    (h : IsWave s E k []) : IsWalk s E k [] 0 where
  nodup := List.nodup_nil
  mem_iff t := by
    refine iff_of_false List.not_mem_nil ?_
    rintro ⟨ht, hle⟩
    obtain ⟨j, -, hj⟩ := ht.exists_rank hs hmin
    rw [hj] at hle
    obtain ⟨u, hu⟩ := ht.exists_above hs hmin hj (Nat.le_of_mul_le_mul_right hle hs.levels_pos)
    exact List.not_mem_nil ((h.mem_iff u).2 hu)
  lt_waves_iff j := iff_of_false (Nat.not_lt_zero j) fun ⟨_, ht, _⟩ => List.not_mem_nil ht

theorem isWalk_rankCount (hs : s.Valid) (hmin : s.minLevel = 0) (E : Node → Bool) :
    IsWalk s E s.rankCount [] 0 where
  nodup := List.nodup_nil
  mem_iff t := by
    refine iff_of_false List.not_mem_nil ?_
    rintro ⟨ht, hle⟩
    obtain ⟨j, hlt, hj⟩ := ht.exists_rank hs hmin
    rw [hj] at hle
    exact Nat.not_le.2 hlt (Nat.le_of_mul_le_mul_right hle hs.levels_pos)
  lt_waves_iff j := iff_of_false (Nat.not_lt_zero j) fun ⟨_, ht, _⟩ => List.not_mem_nil ht

/-- A wave and the walk from the next rank on. -/
theorem IsWave.isWalk (hs : s.Valid) (hmin : s.minLevel = 0) {k waves : Nat}
    {wave visited : List Tile} (hwave : IsWave s E k wave) (hne : wave ≠ [])
    (h : IsWalk s E (k + 1) visited waves) : IsWalk s E k (wave ++ visited) (waves + 1) := by
  have hpos := hs.levels_pos
  have hmul : (k + 1) * s.subtreeLevels = k * s.subtreeLevels + s.subtreeLevels :=
    Nat.succ_mul _ _
  constructor
  · refine List.nodup_append.2 ⟨hwave.nodup, h.nodup, fun t ht t' ht' heq => ?_⟩
    have hlevel := ((hwave.mem_iff t).1 ht).2
    have hlevel' := ((h.mem_iff t').1 ht').2
    rw [← heq] at hlevel'
    omega
  · intro t
    rw [List.mem_append, hwave.mem_iff, h.mem_iff]
    constructor
    · rintro (⟨ht, hlevel⟩ | ⟨ht, hle⟩)
      · exact ⟨ht, hlevel.ge⟩
      · exact ⟨ht, by omega⟩
    · rintro ⟨ht, hle⟩
      obtain ⟨j, -, hj⟩ := ht.exists_rank hs hmin
      have hkj : k ≤ j := Nat.le_of_mul_le_mul_right (hj ▸ hle) hpos
      rcases Nat.eq_or_lt_of_le hkj with rfl | hlt
      · exact .inl ⟨ht, hj⟩
      · exact .inr ⟨ht, hj ▸ Nat.mul_le_mul_right _ hlt⟩
  · intro j
    cases j with
    | zero =>
      obtain ⟨t, ht⟩ := List.exists_mem_of_ne_nil wave hne
      exact iff_of_true (Nat.succ_pos _)
        ⟨t, List.mem_append_left _ ht, ((hwave.mem_iff t).1 ht).2⟩
    | succ j =>
      rw [Nat.succ_lt_succ_iff, h.lt_waves_iff, Nat.add_right_comm, Nat.add_assoc k]
      refine exists_congr fun t => and_congr_left fun hlevel => ?_
      rw [List.mem_append]
      refine (or_iff_right fun ht => ?_).symm
      have hlevel' := ((hwave.mem_iff t).1 ht).2
      have hlt : k * s.subtreeLevels < (k + (j + 1)) * s.subtreeLevels :=
        Nat.mul_lt_mul_of_pos_right (by omega) hpos
      omega

end Generator

end ImplicitTiling
