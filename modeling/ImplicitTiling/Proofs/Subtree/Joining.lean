import ImplicitTiling.Proofs.Subtree.Merging

/-!
# Four subtrees and their parent

`concatenate_isJoin` says when four parts have a parent and what it is: every bit of a part stands
in the parent once, one level further down and in the block of the part, and there is no other bit
but the root (`IsJoin.cardinality_eq`). Parts that do not fit together are refused.
-/

namespace ImplicitTiling.Subtree

open Availability (cardinality_of_blocks cardinality_of_children_blocks fits_of_misfit?_eq_none)

variable {parts : List Subtree}

theorem of_concatenate_eq_ok {s : Subtree} (h : concatenate parts = .ok s) :
    parts.length = 4 ∧ ∃ levels, 1 ≤ levels ∧ ∀ p ∈ parts, p.levels = levels := by
  unfold concatenate at h
  by_cases h4 : parts.length = 4
  · rw [if_neg (not_not_intro h4)] at h
    dsimp only [bind, Except.bind, pure, Except.pure] at h
    split at h
    · cases h
    · next hpos =>
      split at h
      · cases h
      · next hany =>
        refine ⟨h4, _, Nat.not_lt.1 hpos, fun p hp => ?_⟩
        simpa using List.any_eq_false.1 (Bool.eq_false_of_not_eq_true hany) p hp
  · rw [if_pos h4] at h
    cases h

theorem exists_concatenate_error_iff :
    (∃ e, concatenate parts = .error e) ↔
      parts.length ≠ 4 ∨ (∃ p ∈ parts, ∃ p' ∈ parts, p.levels ≠ p'.levels) ∨
        ∃ p ∈ parts, p.levels = 0 := by
  constructor
  · rintro ⟨e, he⟩
    by_contra hgood
    simp only [not_or, not_exists, not_and, not_not] at hgood
    obtain ⟨h4, hlevels, hne⟩ := hgood
    have hpos : 0 < parts.length := by omega
    have hfirst := List.getElem_mem hpos
    obtain ⟨s, hs, -⟩ := exists_isJoin h4 (fun p hp => hlevels p hp _ hfirst)
      (Nat.one_le_iff_ne_zero.2 (hne _ hfirst))
    rw [hs] at he
    cases he
  · intro hbad
    cases hs : concatenate parts with
    | error e => exact ⟨e, rfl⟩
    | ok s =>
      obtain ⟨h4, levels, h1, hlevels⟩ := of_concatenate_eq_ok hs
      rcases hbad with h | ⟨p, hp, p', hp', hne⟩ | ⟨p, hp, hzero⟩
      · exact absurd h4 h
      · exact absurd ((hlevels p hp).trans (hlevels p' hp').symm) hne
      · have := hlevels p hp
        omega

theorem cardinality_pyramid {f : Subtree → Availability} {s : Subtree} {levels : Nat}
    (hf : ∀ t, (f t).topology = .pyramid ∧ (f t).levelCount = t.levels)
    (hs : s.levels = levels + 1) (h4 : parts.length = 4) (hlevels : ∀ p ∈ parts, p.levels = levels)
    (hbelow : ∀ i < levels, ∀ q (hq : q < parts.length), ∀ j < 4 ^ i,
      ((f s).row (i + 1)).get (q * 4 ^ i + j) = ((f parts[q]).row i).get j) :
    (f s).cardinality = (parts.map fun p => (f p).cardinality).sum +
      if ((f s).row 0).get 0 then 1 else 0 := by
  have hsum : (f s).cardinality = ((parts.map f).map Availability.cardinality).sum +
      if ((f s).row 0).get 0 then 1 else 0 := by
    apply cardinality_of_blocks (hf s).1 ((hf s).2.trans hs)
    · simpa using h4
    · exact forall_mem_map fun p hp => ⟨(hf p).1, (hf p).2.trans (hlevels p hp)⟩
    · intro i hi q hq j hj
      rw [hbelow i hi q (by simpa using hq) j hj, List.getElem_map]
  rwa [List.map_map] at hsum

theorem IsJoin.cardinality_eq {s : Subtree} {levels : Nat} (h : IsJoin parts levels s)
    (h4 : parts.length = 4) (hlevels : ∀ p ∈ parts, p.levels = levels) :
    s.tiles.cardinality = (parts.map fun p => p.tiles.cardinality).sum +
        (if parts.any (·.tiles.isAvailable) then 1 else 0) ∧
      s.content.cardinality = (parts.map fun p => p.content.cardinality).sum ∧
      s.children.cardinality = (parts.map fun p => p.children.cardinality).sum := by
  refine ⟨?_, ?_, ?_⟩
  · rw [cardinality_pyramid (fun t => ⟨t.tiles_topology, t.tiles_levels⟩) h.levels_eq h4 hlevels
      h.tile_below, h.tile_root]
  · rw [cardinality_pyramid (fun t => ⟨t.content_topology, t.content_levels⟩) h.levels_eq h4 hlevels
      h.content_below, h.content_root, if_neg Bool.false_ne_true, Nat.add_zero]
  · have hlength : s.children.length = 4 ^ (levels + 1) := by rw [s.children_length, h.levels_eq]
    have hsum := cardinality_of_children_blocks s.children_topology hlength
      ((List.length_map Subtree.children).trans h4)
      (forall_mem_map fun p hp => ⟨p.children_topology, by rw [p.children_length, hlevels p hp]⟩) ?_
    · rwa [List.map_map] at hsum
    · intro q hq c hc
      rw [h.child q (by simpa using hq) c hc, List.getElem_map]

/-- **Joining subtrees.** Four subtrees of one depth have a parent, in which every bit of a part
stands once. Any other parts are refused, and so are availabilities that are not four of one kind
and shape. -/
theorem concatenate_isJoin (parts : List Subtree) :
    (∀ levels, 1 ≤ levels → parts.length = 4 → (∀ p ∈ parts, p.levels = levels) →
      ∃ s, concatenate parts = .ok s ∧ IsJoin parts levels s ∧
        s.tiles.cardinality = (parts.map fun p => p.tiles.cardinality).sum +
          (if parts.any (·.tiles.isAvailable) then 1 else 0) ∧
        s.content.cardinality = (parts.map fun p => p.content.cardinality).sum ∧
        s.children.cardinality = (parts.map fun p => p.children.cardinality).sum) ∧
    ((∃ e, concatenate parts = .error e) ↔
      parts.length ≠ 4 ∨ (∃ p ∈ parts, ∃ p' ∈ parts, p.levels ≠ p'.levels) ∨
        ∃ p ∈ parts, p.levels = 0) ∧
    ∀ (availabilities : List Availability) (topology : Topology) (content : Bool),
      (∃ e, Availability.concatenate availabilities topology content = .error e) ↔
        availabilities.length ≠ 4 ∨ (∃ a ∈ availabilities, a.topology ≠ topology) ∨
          ∃ a ∈ availabilities, ∃ a' ∈ availabilities,
            a.levelCount ≠ a'.levelCount ∨ a.length ≠ a'.length := by
  refine ⟨?_, exists_concatenate_error_iff, fun availabilities topology content =>
    Availability.exists_concatenate_error_iff⟩
  intro levels h1 h4 hlevels
  obtain ⟨s, hs, hjoin⟩ := exists_isJoin h4 hlevels h1
  exact ⟨s, hs, hjoin, hjoin.cardinality_eq h4 hlevels⟩

/-- A quadrant of two levels: its root, two tiles below it, content on one of them, and two child
subtrees. -/
def sparseQuadrant : Subtree where
  levels := 2
  tiles := ⟨.pyramid, [bitRow true, .ofIndices 4 [1, 2]], fits_of_misfit?_eq_none rfl⟩
  content := ⟨.pyramid, [bitRow false, .ofIndices 4 [2]], fits_of_misfit?_eq_none rfl⟩
  children := ⟨.children, [.ofIndices 16 [4, 11]], ⟨_, 2, rfl, rfl⟩⟩
  tiles_topology := rfl
  content_topology := rfl
  children_topology := rfl
  tiles_levels := rfl
  content_levels := rfl
  children_length := rfl

/-- Two sparse quadrants and two empty ones. -/
theorem concatenate_isJoin_two_levels : ∃ parts s, parts.length = 4 ∧ (∀ p ∈ parts, p.levels = 2) ∧
    concatenate parts = .ok s ∧ (s.tiles.row 0).get 0 = true ∧ (s.tiles.row 2).get 9 = true ∧
    (s.children.row 0).get 43 = true ∧ s.tiles.cardinality = 7 ∧ s.content.cardinality = 2 ∧
    s.children.cardinality = 4 := by
  obtain ⟨s, hs, hjoin, htiles, hcontent, hchildren⟩ :=
    (concatenate_isJoin [sparseQuadrant, .empty 2, sparseQuadrant, .empty 2]).1 2 (by decide) rfl
      (by simp [sparseQuadrant, empty])
  refine ⟨_, s, rfl, ?_, hs, hjoin.tile_root, ?_, ?_, htiles, hcontent, hchildren⟩
  · simp [sparseQuadrant, empty]
  · exact hjoin.tile_below 1 (by decide) 2 (by decide) 1 (by decide)
  · exact hjoin.child 2 (by decide) 11 (by decide)

end ImplicitTiling.Subtree
