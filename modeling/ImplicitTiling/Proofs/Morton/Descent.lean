import ImplicitTiling.Proofs.Store.Nodes
import Mathlib.Data.Set.Function

/-!
# Descent by indices and by coordinates

A step down the quadtree appends two bits to the index of a tile and one bit to each of its
coordinates. So the `i`-th index below tile `(x, y)` belongs to the tile that lies in `(x, y)` where
tile `i` lies in the root (`toNat_deinterleave_descendant`), and the run of indices below `(x, y)`
is that of the tiles inside it (`descendants_bijOn`).
-/

namespace ImplicitTiling

/-- The tile lies inside another one, `depth` levels above it. -/
structure Tile.Inside (t outer : Tile) (depth : Nat) : Prop where
  level_eq : t.level = outer.level + depth
  west_le : 2 ^ depth * outer.x.toNat ≤ t.x.toNat
  lt_east : t.x.toNat < 2 ^ depth * (outer.x.toNat + 1)
  south_le : 2 ^ depth * outer.y.toNat ≤ t.y.toNat
  lt_north : t.y.toNat < 2 ^ depth * (outer.y.toNat + 1)

namespace Morton

variable {level depth : Nat} {m i : UInt64}

/-- The number `a` consists of every other bit of an index of a level, from bit `c` on. -/
def TakesBits (c level index a : Nat) : Prop :=
  ∀ j, a.testBit j = (decide (j < level) && index.testBit (2 * j + c))

theorem takesBits_fst (index : UInt64) (level : Nat) :
    TakesBits 0 level index.toNat (deinterleave index level).1.toNat :=
  testBit_deinterleave_fst index level

theorem takesBits_snd (index : UInt64) (level : Nat) :
    TakesBits 1 level index.toNat (deinterleave index level).2.toNat :=
  testBit_deinterleave_snd index level

/-- The bits taken from an index are those of its place below those of the index above. -/
theorem TakesBits.descendant {c m i a b e : Nat} (hc : c < 2) (hi : i < 4 ^ depth)
    (ha : TakesBits c level m a) (hb : TakesBits c depth i b)
    (he : TakesBits c (level + depth) (4 ^ depth * m + i) e) : e = 2 ^ depth * a + b := by
  have hlt : b < 2 ^ depth := by
    apply Nat.lt_pow_two_of_testBit
    intro j hj
    rw [hb, decide_eq_false (Nat.not_lt.2 hj), Bool.false_and]
  rw [four_pow_eq] at hi he
  apply Nat.eq_of_testBit_eq
  intro j
  rw [he, Nat.testBit_two_pow_mul_add _ hi, Nat.testBit_two_pow_mul_add _ hlt]
  -- The `depth` low bits of the coordinate come from the place, the others from the index above.
  by_cases hj : j < depth
  · have hindex : 2 * j + c < 2 * depth := by omega
    rw [if_pos hindex, if_pos hj, hb, decide_eq_true hj, decide_eq_true (by omega)]
  · have hindex : ¬ 2 * j + c < 2 * depth := by omega
    have hplace : 2 * j + c - 2 * depth = 2 * (j - depth) + c := by omega
    have hiff : j < level + depth ↔ j - depth < level := by omega
    rw [if_neg hindex, if_neg hj, ha, hplace, decide_eq_decide.2 hiff]

/-- **Coordinates below a tile** are those of the tile, doubled at every level, and those of the
place. -/
theorem toNat_deinterleave_descendant (hd : depth < 32) (hl : level + depth ≤ 32)
    (hm : m.toNat < 4 ^ level) (hi : i.toNat < 4 ^ depth) :
    (deinterleave (firstDescendant m depth + i) (level + depth)).1.toNat =
        2 ^ depth * (deinterleave m level).1.toNat + (deinterleave i depth).1.toNat ∧
      (deinterleave (firstDescendant m depth + i) (level + depth)).2.toNat =
        2 ^ depth * (deinterleave m level).2.toNat + (deinterleave i depth).2.toNat := by
  have hindex := Node.toNat_descendant hd hl hm hi
  have hfst := takesBits_fst (firstDescendant m depth + i) (level + depth)
  have hsnd := takesBits_snd (firstDescendant m depth + i) (level + depth)
  rw [hindex] at hfst hsnd
  constructor
  · exact TakesBits.descendant (by decide) hi (takesBits_fst m level) (takesBits_fst i depth) hfst
  · exact TakesBits.descendant (by decide) hi (takesBits_snd m level) (takesBits_snd i depth) hsnd

/-! ## Tiles inside a tile -/

theorem morton_tile {w : UInt64} (hw : w.toNat < 4 ^ level) :
    (Node.tile ⟨level, w⟩).morton = w :=
  congrArg Node.index (Node.node_tile (n := ⟨level, w⟩) hw)

theorem inside_descendant (hd : depth < 32) (hl : level + depth ≤ 32) (hm : m.toNat < 4 ^ level)
    (hi : i.toNat < 4 ^ depth) :
    (Node.tile ⟨level + depth, firstDescendant m depth + i⟩).Inside (Node.tile ⟨level, m⟩)
      depth := by
  obtain ⟨hx, hy⟩ := toNat_deinterleave_descendant hd hl hm hi
  obtain ⟨hdx, hdy⟩ := deinterleave_lt i depth
  constructor
  case level_eq => rfl
  case west_le => exact (Nat.le_add_right _ _).trans_eq hx.symm
  case lt_east => exact hx.trans_lt (by rw [Nat.mul_succ]; exact Nat.add_lt_add_left hdx _)
  case south_le => exact (Nat.le_add_right _ _).trans_eq hy.symm
  case lt_north => exact hy.trans_lt (by rw [Nat.mul_succ]; exact Nat.add_lt_add_left hdy _)

theorem exists_offset {a : Nat} {z : UInt32} (hle : 2 ^ depth * a ≤ z.toNat)
    (hlt : z.toNat < 2 ^ depth * (a + 1)) :
    ∃ dz : UInt32, dz.toNat < 2 ^ depth ∧ z.toNat = 2 ^ depth * a + dz.toNat := by
  rw [Nat.mul_succ] at hlt
  have hz : (UInt32.ofNat (z.toNat - 2 ^ depth * a)).toNat = z.toNat - 2 ^ depth * a :=
    UInt32.toNat_ofNat_of_lt (Nat.lt_of_le_of_lt (Nat.sub_le _ _) z.toNat_lt)
  exact ⟨UInt32.ofNat (z.toNat - 2 ^ depth * a), by omega, by omega⟩

theorem exists_of_inside (hd : depth < 32) (hl : level + depth ≤ 32) (hm : m.toNat < 4 ^ level)
    {t : Tile} (h : t.Inside (Node.tile ⟨level, m⟩) depth) :
    ∃ i : UInt64, i.toNat < 4 ^ depth ∧
      t = Node.tile ⟨level + depth, firstDescendant m depth + i⟩ := by
  -- The place is the index that the offsets of the tile have `depth` levels below the root.
  obtain ⟨dx, hdx, hx⟩ := exists_offset h.west_le h.lt_east
  obtain ⟨dy, hdy, hy⟩ := exists_offset h.south_le h.lt_north
  have hi := interleave_lt dx dy depth
  have hback := deinterleave_interleave hdx hdy
  obtain ⟨hx', hy'⟩ := toNat_deinterleave_descendant hd hl hm hi
  rw [hback] at hx' hy'
  refine ⟨interleave dx dy depth, hi, ?_⟩
  obtain ⟨l, x, y⟩ := t
  obtain rfl : l = level + depth := h.level_eq
  show _ = Tile.mk _ (deinterleave _ _).1 (deinterleave _ _).2
  rw [Tile.mk.injEq]
  exact ⟨rfl, UInt32.toNat_inj.1 (hx.trans hx'.symm), UInt32.toNat_inj.1 (hy.trans hy'.symm)⟩

theorem bijOn_morton (hd : depth < 32) (hl : level + depth ≤ 32) (hm : m.toNat < 4 ^ level) :
    Set.BijOn Tile.morton {t | t.Inside (Node.tile ⟨level, m⟩) depth}
      {w | (firstDescendant m depth).toNat ≤ w.toNat ∧
        w.toNat < (firstDescendant m depth).toNat + 4 ^ depth} := by
  have hfirst := Node.toNat_firstDescendant hd hl hm
  have hmorton {i : UInt64} (hi : i.toNat < 4 ^ depth) :
      (Node.tile ⟨level + depth, firstDescendant m depth + i⟩).morton =
        firstDescendant m depth + i :=
    morton_tile ((Node.toNat_descendant hd hl hm hi).trans_lt (Node.descendant_lt hm hi))
  refine ⟨?_, ?_, ?_⟩
  · intro t ht
    obtain ⟨i, hi, rfl⟩ := exists_of_inside hd hl hm ht
    show _ ≤ (Tile.morton _).toNat ∧ (Tile.morton _).toNat < _
    rw [hmorton hi, Node.toNat_descendant hd hl hm hi, hfirst]
    exact ⟨Nat.le_add_right _ _, Nat.add_lt_add_left hi _⟩
  · intro t ht t' ht' heq
    obtain ⟨i, hi, rfl⟩ := exists_of_inside hd hl hm ht
    obtain ⟨i', hi', rfl⟩ := exists_of_inside hd hl hm ht'
    rw [hmorton hi, hmorton hi'] at heq
    rw [heq]
  · rintro w ⟨hle, hlt⟩
    have hadd : firstDescendant m depth + (w - firstDescendant m depth) = w := by
      rw [UInt64.add_comm, UInt64.sub_add_cancel]
    have hi : (w - firstDescendant m depth).toNat < 4 ^ depth := by
      rw [UInt64.toNat_sub_of_le _ _ (UInt64.le_iff_toNat_le.2 hle)]
      omega
    have hinside := inside_descendant hd hl hm hi
    have hw := hmorton hi
    rw [hadd] at hinside hw
    exact ⟨_, hinside, hw⟩

/-! ## One step down -/

theorem deinterleave_quadrant {q : UInt32} (hq : q.toNat < 4) :
    deinterleave q.toUInt64 1 = (q % 2, q / 2) := by
  have hcases : q = 0 ∨ q = 1 ∨ q = 2 ∨ q = 3 := by
    rw [← UInt32.toNat_inj, ← UInt32.toNat_inj, ← UInt32.toNat_inj, ← UInt32.toNat_inj]
    show q.toNat = 0 ∨ q.toNat = 1 ∨ q.toNat = 2 ∨ q.toNat = 3
    omega
  rcases hcases with rfl | rfl | rfl | rfl <;> decide

theorem toNat_double_add {a b : UInt32} (ha : a.toNat < 2 ^ level) (hl : level < 32)
    (hb : b.toNat < 2) : (2 * a + b).toNat = 2 ^ 1 * a.toNat + b.toNat := by
  have hle : 2 ^ level ≤ 2 ^ 31 := Nat.pow_le_pow_right (by decide) (Nat.le_of_lt_succ hl)
  rw [UInt32.toNat_add, UInt32.toNat_mul]
  show (2 * a.toNat % 2 ^ 32 + b.toNat) % 2 ^ 32 = _
  omega

theorem child_tile (hl : level < 32) (hm : m.toNat < 4 ^ level) {q : UInt32} (hq : q.toNat < 4) :
    (Node.tile ⟨level, m⟩).child q = Node.tile ⟨level + 1, child m q.toUInt64⟩ := by
  have hplace : q.toUInt64.toNat < 4 ^ 1 := by rwa [UInt32.toNat_toUInt64]
  have hchild : child m q.toUInt64 = firstDescendant m 1 + q.toUInt64 := by
    apply UInt64.toNat_inj.1
    rw [Node.toNat_child hl hm hplace, Node.toNat_descendant (by decide) hl hm hplace]
  obtain ⟨hx, hy⟩ := toNat_deinterleave_descendant (by decide) hl hm hplace
  obtain ⟨hxlt, hylt⟩ := deinterleave_lt m level
  have hmod : (q % 2).toNat < 2 := UInt32.toNat_mod q 2 ▸ Nat.mod_lt _ (by decide)
  have hdiv : (q / 2).toNat < 2 := UInt32.toNat_div q 2 ▸ Nat.div_lt_of_lt_mul hq
  rw [deinterleave_quadrant hq] at hx hy
  show Tile.mk (level + 1) (2 * (deinterleave m level).1 + q % 2)
    (2 * (deinterleave m level).2 + q / 2) = Tile.mk _ (deinterleave _ _).1 (deinterleave _ _).2
  rw [Tile.mk.injEq, hchild]
  refine ⟨rfl, UInt32.toNat_inj.1 ?_, UInt32.toNat_inj.1 ?_⟩
  · rw [hx, toNat_double_add hxlt hl hmod]
  · rw [hy, toNat_double_add hylt hl hdiv]

/-- **Descent by indices is descent by coordinates.** The `i`-th index below the tile of `m` has its
coordinates, doubled at every level, and those of place `i`; the run of all of them is one to one
with the tiles inside the tile of `m`; and one step down, the children are those by coordinates. -/
theorem descendants_bijOn (hd : depth < 32) (hl : level + depth ≤ 32) (hm : m.toNat < 4 ^ level) :
    (∀ i : UInt64, i.toNat < 4 ^ depth →
      (firstDescendant m depth + i).toNat = (firstDescendant m depth).toNat + i.toNat ∧
      (deinterleave (firstDescendant m depth + i) (level + depth)).1.toNat =
        2 ^ depth * (deinterleave m level).1.toNat + (deinterleave i depth).1.toNat ∧
      (deinterleave (firstDescendant m depth + i) (level + depth)).2.toNat =
        2 ^ depth * (deinterleave m level).2.toNat + (deinterleave i depth).2.toNat) ∧
    Set.BijOn Tile.morton {t | t.Inside (Node.tile ⟨level, m⟩) depth}
      {w | (firstDescendant m depth).toNat ≤ w.toNat ∧
        w.toNat < (firstDescendant m depth).toNat + 4 ^ depth} ∧
    (depth = 1 → ∀ q : UInt32, q.toNat < 4 →
      ((Node.tile ⟨level, m⟩).child q).morton = child m q.toUInt64) := by
  refine ⟨?_, bijOn_morton hd hl hm, ?_⟩
  · intro i hi
    rw [Node.toNat_firstDescendant hd hl hm, Node.toNat_descendant hd hl hm hi]
    exact ⟨rfl, toNat_deinterleave_descendant hd hl hm hi⟩
  · rintro rfl q hq
    have hq64 : q.toUInt64.toNat < 4 := by rwa [UInt32.toNat_toUInt64]
    rw [child_tile hl hm hq]
    exact morton_tile ((Node.toNat_child hl hm hq64).trans_lt (Node.child_lt hm hq64))

/-- Twelve levels and one level down, both to the last level, next to the north-east corner. -/
theorem descendants_bijOn_last_level :
    (12 < 32 ∧ 20 + 12 ≤ 32 ∧ (1099511627774 : UInt64).toNat < 4 ^ 20 ∧
      (16777213 : UInt64).toNat < 4 ^ 12 ∧
      (deinterleave (firstDescendant 1099511627774 12 + 16777213) (20 + 12)).1.toNat =
        2 ^ 12 * 1048574 + 4095 ∧
      Set.BijOn Tile.morton {t | t.Inside ⟨20, 1048574, 1048575⟩ 12}
        {w | 18446744073675997184 ≤ w.toNat ∧ w.toNat < 18446744073692774400}) ∧
    1 < 32 ∧ 31 + 1 ≤ 32 ∧ (4611686018427387902 : UInt64).toNat < 4 ^ 31 ∧ (3 : UInt32).toNat < 4 ∧
      ((⟨31, 2147483646, 2147483647⟩ : Tile).child 3).morton = child 4611686018427387902 3 := by
  obtain ⟨hplace, hrun, -⟩ :=
    descendants_bijOn (by decide : 12 < 32) (by decide : 20 + 12 ≤ 32)
      (by decide : (1099511627774 : UInt64).toNat < 4 ^ 20)
  obtain ⟨-, -, hchild⟩ :=
    descendants_bijOn (by decide : 1 < 32) (by decide : 31 + 1 ≤ 32)
      (by decide : (4611686018427387902 : UInt64).toNat < 4 ^ 31)
  exact ⟨⟨by decide, by decide, by decide, by decide, (hplace 16777213 (by decide)).2.1, hrun⟩,
    by decide, by decide, by decide, by decide, hchild rfl 3 (by decide)⟩

end Morton

end ImplicitTiling
