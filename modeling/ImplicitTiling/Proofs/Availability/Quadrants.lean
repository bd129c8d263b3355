import ImplicitTiling.Proofs.Availability.Flattening
import ImplicitTiling.Proofs.Bitset.Blocks
import Mathlib.Algebra.BigOperators.Group.Multiset.Basic

/-!
# Four quadrants

Four availabilities of one shape always join. In the result, block `q` of a row is the row one level
up of quadrant `q` (`concatenate_pyramid`, `concatenate_children`), so the set bits below the root
are those of the quadrants (`cardinality_of_blocks`). Parts that are not four, or not of one shape,
are refused (`exists_concatenate_error_iff`).
-/

namespace ImplicitTiling.Availability

/-- The bits of a row of `4 ^ (i + 1)` bits by the quadrant in which they stand. -/
theorem exists_quadrant {i j : Nat} (m : Nat) (hj : j < 4 ^ (i + 1)) : ∃ q < 4, ∃ r < 4 ^ i,
    j = q * 4 ^ i + r ∧ 4 ^ (i + 1) * m + j = 4 ^ i * (4 * m + q) + r := by
  have hpos : 0 < 4 ^ i := Nat.pow_pos (by decide)
  have hdiv : j = j / 4 ^ i * 4 ^ i + j % 4 ^ i := (Nat.div_add_mod' j (4 ^ i)).symm
  refine ⟨j / 4 ^ i, ?_, j % 4 ^ i, Nat.mod_lt _ hpos, hdiv, ?_⟩
  · rw [Nat.pow_succ, Nat.mul_comm] at hj
    exact Nat.div_lt_of_lt_mul (by rw [Nat.mul_comm]; exact hj)
  · rw [Nat.mul_add, Nat.pow_succ, Nat.mul_assoc, Nat.add_assoc, Nat.mul_comm (4 ^ i) (j / 4 ^ i),
      ← hdiv]

theorem joinRows_eq_layOut (rows : List Bitset) (block : Nat) :
    joinRows rows block = Bitset.layOut rows (· * block) 0 (Bitset.empty (4 * block)) :=
  rfl

@[simp] theorem size_joinRows (rows : List Bitset) (block : Nat) :
    (joinRows rows block).size = 4 * block := by
  rw [joinRows_eq_layOut, Bitset.size_layOut, Bitset.size_empty]

theorem get_joinRows {rows : List Bitset} {block : Nat} (h4 : rows.length = 4)
    (hsize : ∀ row ∈ rows, row.size = block) {q : Nat} (hq : q < rows.length) {j : Nat}
    (hj : j < block) : (joinRows rows block).get (q * block + j) = rows[q].get j := by
  have hlt : q * block + j < 4 * block := by
    have := Nat.mul_le_mul_right block (show q + 1 ≤ 4 by omega)
    rw [Nat.succ_mul] at this
    omega
  have hrow : ∀ p (h : p < rows.length), rows[p].size = block := fun p h =>
    hsize _ (List.getElem_mem h)
  rw [joinRows_eq_layOut]
  apply Bitset.get_layOut (fun _ _ h => Nat.mul_le_mul_right block h) ?_ hq (by rwa [hrow]) hlt
  intro p hp
  rw [hrow p hp, Nat.succ_mul]

/-- The parts have one topology and shape. -/
def Alike (parts : List Availability) (topology : Topology) (levels length : Nat) : Prop :=
  ∀ p ∈ parts, p.topology = topology ∧ p.levelCount = levels ∧ p.length = length

theorem find?_unlike_eq_none {parts : List Availability} {topology : Topology} {levels length : Nat}
    (h : Alike parts topology levels length) :
    (parts.find? fun p =>
      p.topology ≠ topology || p.levelCount ≠ levels || p.length ≠ length) = none := by
  rw [List.find?_eq_none]
  intro p hp
  obtain ⟨h1, h2, h3⟩ := h p hp
  simp [h1, h2, h3]

section

variable {parts : List Availability} {levels : Nat}

theorem head?_of_length_four (h4 : parts.length = 4) {f : Availability → Nat} {n : Nat}
    (h : ∀ p ∈ parts, f p = n) : (parts.head?.map f).getD 0 = n := by
  cases parts with
  | nil => simp at h4
  | cons p parts => simp [h p List.mem_cons_self]

/-- **Joining pyramids.** The rows of the quadrants go one level down, each in its own block, and
the new root is set by the roots of the quadrants, or not at all. -/
theorem concatenate_pyramid (parts : List Availability) (levels : Nat) (h4 : parts.length = 4)
    (h : ∀ p ∈ parts, p.topology = .pyramid ∧ p.levelCount = levels) (content : Bool) :
    ∃ r, concatenate parts .pyramid content = .ok r ∧ r.topology = .pyramid ∧
      r.levelCount = levels + 1 ∧
      (r.row 0).get 0 = (!content && parts.any isAvailable) ∧
      ∀ i < levels, ∀ q (hq : q < parts.length), ∀ j < 4 ^ i,
        (r.row (i + 1)).get (q * 4 ^ i + j) = (parts[q].row i).get j := by
  have hall : Alike parts .pyramid levels (pyramidLength levels) := by
    intro p hp
    obtain ⟨ht, hl⟩ := h p hp
    exact ⟨ht, hl, by rw [length_pyramid ht, hl]⟩
  set root := (Bitset.empty 1).set 0 (!content && parts.any isAvailable) with hroot
  set below := (List.range levels).map fun i => joinRows (parts.map (·.row i)) (4 ^ i) with hbelow
  have hfit : Fits .pyramid (root :: below) := by
    intro i hi
    cases i with
    | zero => simp [hroot]
    | succ i => simp [hbelow, Nat.pow_succ, Nat.mul_comm]
  refine ⟨⟨.pyramid, root :: below, hfit⟩, ?_, rfl, ?_, ?_, ?_⟩
  · unfold concatenate
    rw [if_neg (not_not_intro h4)]
    dsimp only
    rw [head?_of_length_four h4 fun p hp => (hall p hp).2.1,
      head?_of_length_four h4 fun p hp => (hall p hp).2.2, find?_unlike_eq_none hall]
    exact ofRows_pyramid (List.cons_ne_nil _ _) hfit
  · simp [levelCount, hbelow]
  · show root.get 0 = _
    rw [hroot, Bitset.get_set]
    simp
  · intro i hi q hq j hj
    have hrow : (⟨.pyramid, root :: below, hfit⟩ : Availability).row (i + 1) =
        joinRows (parts.map (·.row i)) (4 ^ i) := by
      simp [row, hbelow, hi]
    have hsize : ∀ r ∈ parts.map (·.row i), r.size = 4 ^ i := by
      intro r hr
      obtain ⟨p, hp, rfl⟩ := List.mem_map.1 hr
      obtain ⟨ht, hl⟩ := h p hp
      exact size_row ht (by omega)
    rw [hrow, get_joinRows (by simpa using h4) hsize (by simpa using hq) hj, List.getElem_map]

/-- **Joining child rows.** The rows of the quadrants stand end to end. -/
theorem concatenate_children (parts : List Availability) (levels : Nat) (h4 : parts.length = 4)
    (h : ∀ p ∈ parts, p.topology = .children ∧ p.length = 4 ^ levels) :
    ∃ r, concatenate parts .children false = .ok r ∧ r.topology = .children ∧
      r.length = 4 ^ (levels + 1) ∧
      ∀ q (hq : q < parts.length), ∀ j < 4 ^ levels,
        (r.row 0).get (q * 4 ^ levels + j) = (parts[q].row 0).get j := by
  have hall : Alike parts .children 1 (4 ^ levels) := by
    intro p hp
    obtain ⟨ht, hl⟩ := h p hp
    exact ⟨ht, by rw [levelCount, rows_children ht]; rfl, hl⟩
  have hsize : (joinRows (parts.map (·.row 0)) (4 ^ levels)).size = 4 ^ (levels + 1) := by
    rw [size_joinRows, Nat.pow_succ, Nat.mul_comm]
  obtain ⟨r, hr, hrt, hrl, hrow⟩ := ofRows_children hsize
  refine ⟨r, ?_, hrt, hrl, ?_⟩
  · unfold concatenate
    rw [if_neg (not_not_intro h4)]
    dsimp only
    rw [head?_of_length_four h4 fun p hp => (hall p hp).2.1,
      head?_of_length_four h4 fun p hp => (hall p hp).2.2, find?_unlike_eq_none hall]
    exact hr
  · intro q hq j hj
    have hsize : ∀ r ∈ parts.map (·.row 0), r.size = 4 ^ levels := by
      intro r hr
      obtain ⟨p, hp, rfl⟩ := List.mem_map.1 hr
      obtain ⟨ht, hl⟩ := h p hp
      rw [← length_children ht, hl]
    rw [hrow, get_joinRows (by simpa using h4) hsize (by simpa using hq) hj, List.getElem_map]

/-! ## What is refused -/

variable {topology : Topology} {content : Bool}

theorem exists_four_pow_of_children {a : Availability} (ht : a.topology = .children) :
    ∃ levels, a.length = 4 ^ levels := by
  obtain ⟨t, rows, hfit⟩ := a
  cases ht
  obtain ⟨row, levels, rfl, hsize⟩ := hfit
  exact ⟨levels, hsize⟩

theorem exists_concatenate_eq_ok {length : Nat} (h4 : parts.length = 4)
    (h : Alike parts topology levels length) (content : Bool) :
    ∃ r, concatenate parts topology content = .ok r := by
  cases topology with
  | pyramid =>
    obtain ⟨r, hr, -⟩ := concatenate_pyramid parts levels h4
      (fun p hp => ⟨(h p hp).1, (h p hp).2.1⟩) content
    exact ⟨r, hr⟩
  | children =>
    have hpos : 0 < parts.length := by omega
    obtain ⟨ht, -, hlength⟩ := h _ (List.getElem_mem hpos)
    obtain ⟨n, hn⟩ := exists_four_pow_of_children ht
    obtain ⟨r, hr, -⟩ := concatenate_children parts n h4
      fun p hp => ⟨(h p hp).1, by rw [(h p hp).2.2, ← hlength, hn]⟩
    exact ⟨r, hr⟩

/-- Parts that join are four and alike. -/
theorem alike_of_concatenate_eq_ok {r : Availability}
    (h : concatenate parts topology content = .ok r) :
    parts.length = 4 ∧ ∃ levels length, Alike parts topology levels length := by
  unfold concatenate at h
  by_cases h4 : parts.length = 4
  · rw [if_neg (not_not_intro h4)] at h
    dsimp only at h
    split at h
    · split at h <;> cases h
    · next hnone =>
      refine ⟨h4, (parts.head?.map levelCount).getD 0, (parts.head?.map length).getD 0,
        fun p hp => ?_⟩
      simpa [and_assoc] using List.find?_eq_none.1 hnone p hp
  · rw [if_pos h4] at h
    cases h

/-- Parts are refused if they are not four, or one has another topology, or two differ in shape. -/
theorem exists_concatenate_error_iff :
    (∃ e, concatenate parts topology content = .error e) ↔
      parts.length ≠ 4 ∨ (∃ p ∈ parts, p.topology ≠ topology) ∨
        ∃ p ∈ parts, ∃ p' ∈ parts, p.levelCount ≠ p'.levelCount ∨ p.length ≠ p'.length := by
  constructor
  · rintro ⟨e, he⟩
    by_contra hgood
    simp only [not_or, not_exists, not_and, not_not] at hgood
    obtain ⟨h4, htopology, hshape⟩ := hgood
    have hpos : 0 < parts.length := by omega
    obtain ⟨r, hr⟩ := exists_concatenate_eq_ok h4 (fun p hp =>
      ⟨htopology p hp, hshape p hp _ (List.getElem_mem hpos)⟩) content
    rw [hr] at he
    cases he
  · intro hbad
    cases hr : concatenate parts topology content with
    | error e => exact ⟨e, rfl⟩
    | ok r =>
      obtain ⟨h4, levels, length, halike⟩ := alike_of_concatenate_eq_ok hr
      rcases hbad with h | ⟨p, hp, ht⟩ | ⟨p, hp, p', hp', hne⟩
      · exact absurd h4 h
      · exact absurd (halike p hp).1 ht
      · obtain ⟨-, hl, hn⟩ := halike p hp
        obtain ⟨-, hl', hn'⟩ := halike p' hp'
        omega

/-! ## Cardinalities -/

theorem cardinality_eq_sum (a : Availability) :
    a.cardinality = ((List.range a.levelCount).map fun i => (a.row i).count).sum := by
  show (a.rows.map Bitset.count).sum = _
  rw [rows_eq_map_row, List.map_map]
  rfl

theorem cardinality_of_levelCount {a : Availability} {levels : Nat}
    (hl : a.levelCount = levels + 1) : a.cardinality =
      (a.row 0).count + ((List.range levels).map fun i => (a.row (i + 1)).count).sum := by
  rw [cardinality_eq_sum, hl, List.range_succ_eq_map, List.map_cons, List.sum_cons, List.map_map]
  rfl

theorem count_row_zero {a : Availability} (ht : a.topology = .pyramid) (hl : 0 < a.levelCount) :
    (a.row 0).count = if (a.row 0).get 0 then 1 else 0 := by
  rw [Bitset.count_eq_countP, size_row ht hl]
  exact List.countP_singleton

/-- The bits of a pyramid whose rows below the root consist of those of its quadrants. -/
theorem cardinality_of_blocks {r : Availability} (hrt : r.topology = .pyramid)
    (hrl : r.levelCount = levels + 1) (h4 : parts.length = 4)
    (hparts : ∀ p ∈ parts, p.topology = .pyramid ∧ p.levelCount = levels)
    (hbelow : ∀ i < levels, ∀ q (hq : q < parts.length), ∀ j < 4 ^ i,
      (r.row (i + 1)).get (q * 4 ^ i + j) = (parts[q].row i).get j) :
    r.cardinality = (parts.map cardinality).sum + if (r.row 0).get 0 then 1 else 0 := by
  have hrow : ∀ i ∈ List.range levels,
      (r.row (i + 1)).count = (parts.map fun p => (p.row i).count).sum := by
    intro i hi
    rw [List.mem_range] at hi
    have hcount : (r.row (i + 1)).count = ((parts.map (·.row i)).map Bitset.count).sum := by
      apply Bitset.count_of_blocks (n := 4 ^ i)
      · rw [size_row hrt (by omega), List.length_map, h4, Nat.pow_succ, Nat.mul_comm]
      · intro row hrow
        obtain ⟨p, hp, rfl⟩ := List.mem_map.1 hrow
        obtain ⟨ht, hl⟩ := hparts p hp
        exact size_row ht (by omega)
      · intro q hq j hj
        rw [hbelow i hi q (by simpa using hq) j hj, List.getElem_map]
    rw [hcount, List.map_map]
    rfl
  have hcard : ∀ p ∈ parts,
      p.cardinality = ((List.range levels).map fun i => (p.row i).count).sum := by
    intro p hp
    rw [cardinality_eq_sum, (hparts p hp).2]
  have hswap := Multiset.sum_map_sum_map (List.range levels : Multiset Nat)
    (parts : Multiset Availability) (f := fun i p => (p.row i).count)
  simp only [Multiset.map_coe, Multiset.sum_coe] at hswap
  rw [cardinality_of_levelCount hrl, count_row_zero hrt (by omega), Nat.add_comm,
    List.map_congr_left hrow, hswap, List.map_congr_left hcard]

theorem cardinality_children {a : Availability} (ht : a.topology = .children) :
    a.cardinality = (a.row 0).count := by
  rw [cardinality_eq_count, toBitset_children ht]

theorem cardinality_of_children_blocks {r : Availability} (hrt : r.topology = .children)
    (hrl : r.length = 4 ^ (levels + 1)) (h4 : parts.length = 4)
    (hparts : ∀ p ∈ parts, p.topology = .children ∧ p.length = 4 ^ levels)
    (hblock : ∀ q (hq : q < parts.length), ∀ c < 4 ^ levels,
      (r.row 0).get (q * 4 ^ levels + c) = (parts[q].row 0).get c) :
    r.cardinality = (parts.map cardinality).sum := by
  have hcount : (r.row 0).count = ((parts.map (·.row 0)).map Bitset.count).sum := by
    apply Bitset.count_of_blocks (n := 4 ^ levels)
    · rw [← length_children hrt, hrl, List.length_map, h4, Nat.pow_succ, Nat.mul_comm]
    · intro row hrow
      obtain ⟨p, hp, rfl⟩ := List.mem_map.1 hrow
      obtain ⟨ht, hl⟩ := hparts p hp
      rw [← length_children ht, hl]
    · intro q hq c hc
      rw [hblock q (by simpa using hq) c hc, List.getElem_map]
  have hcard : ∀ p ∈ parts, p.cardinality = (p.row 0).count :=
    fun p hp => cardinality_children (hparts p hp).1
  rw [cardinality_children hrt, hcount, List.map_map, List.map_congr_left hcard]
  rfl

end

end ImplicitTiling.Availability
