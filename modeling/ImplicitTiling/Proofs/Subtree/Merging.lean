import ImplicitTiling.Proofs.Availability.Quadrants
import ImplicitTiling.Subtree.Basic

/-!
# Joining and summing up subtrees

Four subtrees of one depth always join (`exists_isJoin`), and every subtree of at least one level
has a summary (`exists_isSummary`). `IsJoin` and `IsSummary` say bit by bit what comes out.
-/

namespace ImplicitTiling.Subtree

open Availability

theorem levels_ext {s t : Subtree} (ht : s.tiles = t.tiles) (hc : s.content = t.content)
    (hk : s.children = t.children) : s = t := by
  obtain ⟨l, a, b, c, _, _, _, h, _, _⟩ := s
  obtain ⟨l', a', b', c', _, _, _, h', _, _⟩ := t
  cases ht
  cases hc
  cases hk
  cases h
  cases h'
  rfl

/-- Three availabilities of one depth make a subtree. -/
theorem ofParts_eq_ok {tiles content children : Availability} {levels : Nat}
    (ht : tiles.topology = .pyramid) (hc : content.topology = .pyramid)
    (hk : children.topology = .children) (htl : tiles.levelCount = levels)
    (hcl : content.levelCount = levels) (hkl : children.length = 4 ^ levels) :
    ofParts tiles content children levels =
      .ok ⟨levels, tiles, content, children, ht, hc, hk, htl, hcl, hkl⟩ := by
  unfold ofParts
  rw [dif_pos ⟨ht, hc, hk⟩, dif_pos ⟨htl, hcl⟩, dif_pos hkl]

/-! ## Joining -/

/-- The subtree `s` is the parent of four quadrants of `levels` levels. -/
structure IsJoin (parts : List Subtree) (levels : Nat) (s : Subtree) : Prop where
  levels_eq : s.levels = levels + 1
  tile_root : (s.tiles.row 0).get 0 = parts.any (·.tiles.isAvailable)
  tile_below : ∀ i < levels, ∀ q (hq : q < parts.length), ∀ j < 4 ^ i,
    (s.tiles.row (i + 1)).get (q * 4 ^ i + j) = (parts[q].tiles.row i).get j
  content_root : (s.content.row 0).get 0 = false
  content_below : ∀ i < levels, ∀ q (hq : q < parts.length), ∀ j < 4 ^ i,
    (s.content.row (i + 1)).get (q * 4 ^ i + j) = (parts[q].content.row i).get j
  child : ∀ q (hq : q < parts.length), ∀ c < 4 ^ levels,
    (s.children.row 0).get (q * 4 ^ levels + c) = (parts[q].children.row 0).get c

section

variable {parts : List Subtree} {levels : Nat}

theorem forall_mem_map {p : Availability → Prop} {f : Subtree → Availability}
    (h : ∀ t ∈ parts, p (f t)) : ∀ a ∈ parts.map f, p a := by
  intro a ha
  obtain ⟨t, ht, rfl⟩ := List.mem_map.1 ha
  exact h t ht

theorem exists_isJoin (h4 : parts.length = 4) (hlev : ∀ p ∈ parts, p.levels = levels)
    (h1 : 1 ≤ levels) : ∃ s, concatenate parts = .ok s ∧ IsJoin parts levels s := by
  obtain ⟨tiles, htiles, htt, htl, htr, htb⟩ :=
    concatenate_pyramid (parts.map Subtree.tiles) levels (by simpa using h4)
      (forall_mem_map fun t ht => ⟨t.tiles_topology, t.tiles_levels.trans (hlev t ht)⟩) false
  obtain ⟨content, hcontent, hct, hcl, hcr, hcb⟩ :=
    concatenate_pyramid (parts.map Subtree.content) levels (by simpa using h4)
      (forall_mem_map fun t ht => ⟨t.content_topology, t.content_levels.trans (hlev t ht)⟩) true
  obtain ⟨children, hchildren, hkt, hkl, hkb⟩ :=
    concatenate_children (parts.map Subtree.children) levels (by simpa using h4)
      (forall_mem_map fun t ht => ⟨t.children_topology, by rw [t.children_length, hlev t ht]⟩)
  have hhead : (parts.head?.map Subtree.levels).getD 0 = levels := by
    cases parts with
    | nil => simp at h4
    | cons p parts => simp [hlev p List.mem_cons_self]
  have hany : (parts.any (·.levels ≠ levels)) = false := by
    rw [List.any_eq_false]
    intro p hp
    simp [hlev p hp]
  refine ⟨⟨levels + 1, tiles, content, children, htt, hct, hkt, htl, hcl, hkl⟩, ?_, rfl, ?_, ?_,
    ?_, ?_, ?_⟩
  · unfold concatenate
    rw [if_neg (not_not_intro h4)]
    dsimp only
    rw [hhead, if_neg (Nat.not_lt.2 h1), hany, htiles, hcontent, hchildren]
    exact ofParts_eq_ok htt hct hkt htl hcl hkl
  · rw [htr, Bool.not_false, Bool.true_and, List.any_map]
    rfl
  · intro i hi q hq j hj
    rw [htb i hi q (by simpa using hq) j hj, List.getElem_map]
  · rw [hcr, Bool.not_true, Bool.false_and]
  · intro i hi q hq j hj
    rw [hcb i hi q (by simpa using hq) j hj, List.getElem_map]
  · intro q hq c hc
    rw [hkb q (by simpa using hq) c hc, List.getElem_map]

end

/-! ## Quadrants without content -/

theorem any_iff {parts : List Subtree} (h4 : parts.length = 4) {p : Subtree → Bool} :
    parts.any p = true ↔ ∃ q, ∃ hq : q < 4, p parts[q] = true := by
  rw [List.any_eq_true]
  constructor
  · rintro ⟨t, ht, hp⟩
    obtain ⟨q, hq, rfl⟩ := List.getElem_of_mem ht
    exact ⟨q, h4 ▸ hq, hp⟩
  · rintro ⟨q, hq, hp⟩
    exact ⟨_, List.getElem_mem (h4 ▸ hq), hp⟩

theorem content_eq_empty {t : Subtree} {levels : Nat} (hl : t.levels = levels)
    (h : ∀ i < levels, ∀ j < 4 ^ i, (t.content.row i).get j = false) :
    t.content = .empty levels .pyramid := by
  apply Availability.ext_pyramid t.content_topology (Availability.topology_empty _ _)
  · rw [t.content_levels, hl, Availability.levelCount_empty_pyramid]
  · intro i hi j hj
    rw [t.content_levels, hl] at hi
    rw [h i hi j hj, Availability.get_row_empty]

/-- Quadrants without content have a parent without content. -/
theorem IsJoin.content_eq_empty {parts : List Subtree} {levels : Nat} {t : Subtree}
    (ht : IsJoin parts levels t) (h4 : parts.length = 4)
    (h : ∀ q (hq : q < 4), parts[q].content = .empty levels .pyramid) :
    t.content = .empty (levels + 1) .pyramid := by
  apply Subtree.content_eq_empty ht.levels_eq
  intro i hi j hj
  cases i with
  | zero =>
    obtain rfl : j = 0 := Nat.lt_one_iff.1 hj
    exact ht.content_root
  | succ i =>
    obtain ⟨q, hq, r, hr, rfl, -⟩ := exists_quadrant 0 hj
    rw [ht.content_below i (by omega) q (by omega) r hr, h q hq, get_row_empty]

/-! ## Summing up -/

@[simp] theorem size_bitRow (v : Bool) : (bitRow v).size = 1 := by
  simp [bitRow]

@[simp] theorem get_bitRow (v : Bool) : (bitRow v).get 0 = v := by
  simp [bitRow, Bitset.get_set]

/-- The one-level subtree `r` stands for `s` in the rank above. -/
structure IsSummary (s r : Subtree) : Prop where
  levels_eq : r.levels = 1
  tile : (r.tiles.row 0).get 0 = (s.tiles.row 0).get 0
  content : (r.content.row 0).get 0 = (s.content.row 0).get 0
  child : ∀ c, (r.children.row 0).get c =
    if 2 ≤ s.levels then (s.tiles.row 1).get c else (s.children.row 0).get c

/-- A summary has content only for a root that has content. -/
theorem IsSummary.content_eq_empty {s r : Subtree} (hr : IsSummary s r)
    (h : (s.content.row 0).get 0 = false) : r.content = .empty 1 .pyramid := by
  apply Subtree.content_eq_empty hr.levels_eq
  intro i hi j hj
  obtain rfl : i = 0 := Nat.lt_one_iff.1 hi
  obtain rfl : j = 0 := Nat.lt_one_iff.1 hj
  rw [hr.content, h]

theorem ofRows_bitRow (v : Bool) :
    ∃ a, ofRows [bitRow v] .pyramid = .ok a ∧ a.topology = .pyramid ∧ a.levelCount = 1 ∧
      a.row 0 = bitRow v := by
  have hfit : Fits .pyramid [bitRow v] := by
    intro i hi
    obtain rfl : i = 0 := Nat.lt_one_iff.1 hi
    exact size_bitRow v
  exact ⟨_, ofRows_pyramid (List.cons_ne_nil _ _) hfit, rfl, rfl, rfl⟩

/-- Every subtree of at least one level has a summary. -/
theorem exists_isSummary (s : Subtree) (h1 : 1 ≤ s.levels) :
    ∃ r, s.summary = .ok r ∧ IsSummary s r := by
  obtain ⟨tiles, htiles, htt, htl, htr⟩ := ofRows_bitRow s.tiles.isAvailable
  obtain ⟨content, hcontent, hct, hcl, hcr⟩ := ofRows_bitRow s.content.isAvailable
  set below := if 2 ≤ s.levels then s.tiles.row 1 else s.children.row 0 with hbelow
  have hsize : below.size = 4 ^ 1 := by
    rw [hbelow]
    split
    · next h2 => exact size_row s.tiles_topology (by rw [s.tiles_levels]; omega)
    · next h2 =>
      rw [← length_children s.children_topology, s.children_length]
      congr
      omega
  obtain ⟨children, hchildren, hkt, hkl, hkr⟩ := ofRows_children hsize
  refine ⟨⟨1, tiles, content, children, htt, hct, hkt, htl, hcl, hkl⟩, ?_, rfl, ?_, ?_, ?_⟩
  · unfold summary
    rw [← hbelow, htiles, hcontent]
    dsimp only
    rw [hchildren]
    exact ofParts_eq_ok htt hct hkt htl hcl hkl
  · rw [htr, get_bitRow]
    rfl
  · rw [hcr, get_bitRow]
    rfl
  · intro c
    rw [hkr, hbelow]
    split <;> rfl

end ImplicitTiling.Subtree
