import ImplicitTiling.Proofs.Availability.EndToEnd
import ImplicitTiling.Proofs.Subtree.Joining

/-!
# Summaries at rank boundaries

A rank sees the subtrees below it only through their summaries. A summary is its own summary
(`IsSummary.summary_eq_ok`). The summary of the parent of four siblings depends on nothing but their
roots (`IsJoin.isRootsOf`), which their summaries keep, so that it may as well be taken from the
parent of the summaries (`summary_concatenate`).
-/

namespace ImplicitTiling.Subtree

open Availability

variable {s r r' : Subtree} {parts : List Subtree} {levels : Nat}

/-! ## Subtrees of one level -/

theorem ext_oneLevel (hr : r.levels = 1) (hr' : r'.levels = 1)
    (htile : (r.tiles.row 0).get 0 = (r'.tiles.row 0).get 0)
    (hcontent : (r.content.row 0).get 0 = (r'.content.row 0).get 0)
    (hchild : ∀ c < 4, (r.children.row 0).get c = (r'.children.row 0).get c) : r = r' := by
  have hroot {a b : Availability} (ha : a.topology = .pyramid) (hb : b.topology = .pyramid)
      (hla : a.levelCount = r.levels) (hlb : b.levelCount = r'.levels)
      (h : (a.row 0).get 0 = (b.row 0).get 0) : a = b := by
    apply ext_pyramid ha hb (by rw [hla, hlb, hr, hr'])
    intro i hi j hj
    obtain rfl : i = 0 := by omega
    obtain rfl : j = 0 := Nat.lt_one_iff.1 hj
    exact h
  apply levels_ext
  · exact hroot r.tiles_topology r'.tiles_topology r.tiles_levels r'.tiles_levels htile
  · exact hroot r.content_topology r'.content_topology r.content_levels r'.content_levels hcontent
  · apply ext_children r.children_topology r'.children_topology
    · rw [r.children_length, r'.children_length, hr, hr']
    · rw [r.children_length, hr]
      exact hchild

theorem IsSummary.unique (h : IsSummary s r) (h' : IsSummary s r') : r = r' :=
  ext_oneLevel h.levels_eq h'.levels_eq (h.tile.trans h'.tile.symm)
    (h.content.trans h'.content.symm) fun c _ => (h.child c).trans (h'.child c).symm

theorem isSummary_self (h : r.levels = 1) : IsSummary r r := by
  refine ⟨h, rfl, rfl, fun c => ?_⟩
  rw [h, if_neg (by decide)]

theorem IsSummary.summary_eq_ok (h : IsSummary s r) : r.summary = .ok r := by
  obtain ⟨t, ht, hsummary⟩ := exists_isSummary r (Nat.le_of_eq h.levels_eq.symm)
  rw [ht, hsummary.unique (isSummary_self h.levels_eq)]

/-! ## Four siblings -/

/-- The subtree of one level over the roots of the parts: it exists where one of them does, has no
content, and its child bits are the roots. -/
structure IsRootsOf (parts : List Subtree) (r : Subtree) : Prop where
  levels_eq : r.levels = 1
  tile : (r.tiles.row 0).get 0 = parts.any (·.tiles.isAvailable)
  content : (r.content.row 0).get 0 = false
  child : ∀ q (hq : q < parts.length), (r.children.row 0).get q = parts[q].tiles.isAvailable

theorem IsRootsOf.unique (h4 : parts.length = 4) (h : IsRootsOf parts r)
    (h' : IsRootsOf parts r') : r = r' := by
  refine ext_oneLevel h.levels_eq h'.levels_eq (h.tile.trans h'.tile.symm)
    (h.content.trans h'.content.symm) fun c hc => ?_
  rw [h.child c (h4 ▸ hc), h'.child c (h4 ▸ hc)]

theorem any_root_of_summaries {summaries : List Subtree}
    (hall : List.Forall₂ IsSummary parts summaries) :
    summaries.any (·.tiles.isAvailable) = parts.any (·.tiles.isAvailable) := by
  induction hall with
  | nil => rfl
  | cons hsummary _ ih =>
    rw [List.any_cons, List.any_cons, ih]
    exact congrArg (· || _) hsummary.tile

theorem IsRootsOf.of_summaries {summaries : List Subtree}
    (hall : List.Forall₂ IsSummary parts summaries) (h : IsRootsOf summaries r) :
    IsRootsOf parts r := by
  have hlen := hall.length_eq
  refine ⟨h.levels_eq, h.tile.trans (any_root_of_summaries hall), h.content, fun q hq => ?_⟩
  exact (h.child q (hlen ▸ hq)).trans (hall.get hq (hlen ▸ hq)).tile

/-- The summary of a parent holds the roots of its quadrants. The quadrants have a level, so the
second level of the parent is one of tiles. -/
theorem IsJoin.isRootsOf (hjoin : IsJoin parts levels s) (h1 : 1 ≤ levels) (hr : IsSummary s r) :
    IsRootsOf parts r := by
  refine ⟨hr.levels_eq, hr.tile.trans hjoin.tile_root, hr.content.trans hjoin.content_root,
    fun q hq => ?_⟩
  have hbelow : (s.tiles.row 1).get (q * 1) = parts[q].tiles.isAvailable :=
    hjoin.tile_below 0 h1 q hq 0 Nat.one_pos
  rw [hr.child, hjoin.levels_eq, if_pos (Nat.succ_le_succ h1), ← hbelow, Nat.mul_one]

theorem exists_isRootsOf (h4 : parts.length = 4) (hlevels : ∀ p ∈ parts, p.levels = levels)
    (h1 : 1 ≤ levels) :
    ∃ r, (do (← concatenate parts).summary) = .ok r ∧ IsRootsOf parts r := by
  obtain ⟨s, hs, hjoin⟩ := exists_isJoin h4 hlevels h1
  have hpos : 1 ≤ s.levels := by
    rw [hjoin.levels_eq]
    exact Nat.succ_pos levels
  obtain ⟨r, hr, hsummary⟩ := exists_isSummary s hpos
  refine ⟨r, ?_, hjoin.isRootsOf h1 hsummary⟩
  rw [hs]
  exact hr

/-- **Summaries lose nothing the rank above needs.** Every subtree has a summary, which is its own.
Four siblings have a parent, and its summary is that of the parent of their summaries: the roots of
the four. -/
theorem summary_concatenate :
    (∀ s : Subtree, 1 ≤ s.levels →
      ∃ r, s.summary = .ok r ∧ IsSummary s r ∧ r.summary = .ok r) ∧
    ∀ (parts : List Subtree) (levels : Nat), 1 ≤ levels → parts.length = 4 →
      (∀ p ∈ parts, p.levels = levels) →
      ∃ r, (do (← concatenate parts).summary) = .ok r ∧
        (do (← concatenate (← parts.mapM summary)).summary) = .ok r ∧ IsRootsOf parts r := by
  constructor
  · intro s h1
    obtain ⟨r, hr, hsummary⟩ := exists_isSummary s h1
    exact ⟨r, hr, hsummary, hsummary.summary_eq_ok⟩
  · intro parts levels h1 h4 hlevels
    obtain ⟨r, hr, hroots⟩ := exists_isRootsOf h4 hlevels h1
    obtain ⟨summaries, hsummaries, hall⟩ := exists_mapM_eq_ok fun p hp =>
      exists_isSummary p (hlevels p hp ▸ h1)
    have hone : ∀ p ∈ summaries, p.levels = 1 := by
      intro p hp
      obtain ⟨q, hq, rfl⟩ := List.getElem_of_mem hp
      exact (hall.get (hall.length_eq.symm ▸ hq) hq).levels_eq
    obtain ⟨r', hr', hroots'⟩ :=
      exists_isRootsOf (hall.length_eq.symm.trans h4) hone (Nat.le_refl 1)
    obtain rfl := hroots.unique h4 (hroots'.of_summaries hall)
    refine ⟨r, hr, ?_, hroots⟩
    rw [hsummaries]
    exact hr'

/-- Two sparse quadrants and two empty ones. The summary of one shows the tiles below its root, that
of the parent the roots. -/
theorem summary_concatenate_two_levels : ∃ (r s : Subtree), sparseQuadrant.levels = 2 ∧
    sparseQuadrant.summary = .ok r ∧ r.summary = .ok r ∧ (r.children.row 0).get 1 = true ∧
    (r.children.row 0).get 3 = false ∧
    (do (← concatenate [sparseQuadrant, .empty 2, sparseQuadrant, .empty 2]).summary) = .ok s ∧
    (do (← concatenate (← [sparseQuadrant, .empty 2, sparseQuadrant, .empty 2].mapM
      summary)).summary) = .ok s ∧
    (s.tiles.row 0).get 0 = true ∧ (s.children.row 0).get 1 = false ∧
    (s.children.row 0).get 2 = true := by
  obtain ⟨r, hr, hsummary, hself⟩ := summary_concatenate.1 sparseQuadrant (by decide)
  obtain ⟨s, hs, hs', hroots⟩ :=
    summary_concatenate.2 [sparseQuadrant, .empty 2, sparseQuadrant, .empty 2] 2 (by decide) rfl
      (by simp [sparseQuadrant, empty])
  exact ⟨r, s, rfl, hr, hself, hsummary.child 1, hsummary.child 3, hs, hs', hroots.tile,
    (hroots.child 1 (by decide)).trans (get_row_empty 2 .pyramid 0 0),
    (hroots.child 2 (by decide)).trans (get_bitRow true)⟩

end ImplicitTiling.Subtree
