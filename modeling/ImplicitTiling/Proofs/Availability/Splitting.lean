import ImplicitTiling.Proofs.Availability.Flattening
import ImplicitTiling.Proofs.Availability.Lengths
import ImplicitTiling.Proofs.Availability.Quadrants
import ImplicitTiling.Proofs.Availability.Reduction

/-!
# Flattening and splitting

Splitting cuts one row of bits into the levels of an availability, flattening lays the levels end to
end. `ofBitset_inverse_toBitset`: a row splits exactly if some availability has so many bits, into
one that flattens to it, and whatever availability was made flattens to a row that splits into it.
-/

namespace ImplicitTiling.Availability

variable {bits : Bitset} {length : Nat} {topology : Topology} {a : Availability}

/-! ## From one row -/

/-- The availability holds the bits of one row: those of the first level stand first. -/
structure IsSplit (bits : Bitset) (topology : Topology) (a : Availability) : Prop where
  topology_eq : a.topology = topology
  length_eq : a.length = bits.size
  toBitset_eq : a.toBitset = bits
  bit_eq : topology = .pyramid → bits.size = (4 ^ a.levelCount - 1) / 3 ∧
    ∀ i < a.levelCount, ∀ j < 4 ^ i, (a.row i).get j = bits.get ((4 ^ i - 1) / 3 + j)
  cardinality_eq : a.cardinality = bits.count
  isEmpty_eq : a.isEmpty = bits.isClear
  isFull_eq : a.isFull = bits.isFull

/-- Whatever flattens to a row holds its bits. -/
theorem isSplit_toBitset (a : Availability) : IsSplit a.toBitset a.topology a where
  topology_eq := rfl
  length_eq := (size_toBitset a).symm
  toBitset_eq := rfl
  bit_eq ht := ⟨(size_toBitset a).trans (length_pyramid ht),
    fun _ hi _ hj => (get_toBitset_pyramid ht hi hj).symm⟩
  cardinality_eq := cardinality_eq_count a
  isEmpty_eq := by rw [Bool.eq_iff_iff, isEmpty_iff, Bitset.isClear_iff]
  isFull_eq := by rw [Bool.eq_iff_iff, isFull_iff, Bitset.isFull_iff, size_toBitset]

theorem exists_ofBitset_eq_ok (hsize : bits.size = length) (h : HasLength length topology) :
    ∃ a, ofBitset bits length topology = .ok a ∧ IsSplit bits topology a := by
  subst hsize
  obtain ⟨a, ha, rfl, rfl⟩ : ∃ a, ofBitset bits bits.size topology = .ok a ∧
      a.topology = topology ∧ a.toBitset = bits := by
    cases topology with
    | pyramid =>
      obtain ⟨levels, h1, hlength⟩ := h
      obtain ⟨a, ha, ht, hl, hrow⟩ := ofBitset_pyramid bits h1 hlength
      subst hl
      refine ⟨a, ?_, ht, toBitset_of_slices ht hlength hrow⟩
      rw [hlength]
      exact ha
    | children =>
      obtain ⟨depth, hlength⟩ := h
      obtain ⟨a, ha, ht, -, hrow⟩ := ofBitset_children bits hlength
      refine ⟨a, ?_, ht, (toBitset_children ht).trans hrow⟩
      rw [hlength]
      exact ha
  exact ⟨a, ha, isSplit_toBitset a⟩

/-- Why no availability has `n` bits. -/
def wrongLength (n : Nat) : Topology → Precondition
  | .pyramid => .unbalancedPyramid n
  | .children => .childrenLength n

theorem ofBitset_of_not_hasLength (hsize : bits.size = length) (h : ¬ HasLength length topology) :
    ofBitset bits length topology = .error (wrongLength length topology) := by
  subst hsize
  unfold ofBitset
  rw [if_neg (not_not_intro rfl)]
  cases topology with
  | pyramid =>
    have hnone : pyramidLevels? bits.size = none := by
      rw [Option.eq_none_iff_forall_ne_some]
      exact fun levels hlevels => h ⟨levels, pyramidLevels?_eq_some_iff.1 hlevels⟩
    dsimp only
    rw [hnone]
    rfl
  | children =>
    have hnone : log4? bits.size = none := by
      rw [Option.eq_none_iff_forall_ne_some]
      exact fun depth hdepth => h ⟨depth, log4?_eq_some_iff.1 hdepth⟩
    unfold ofRows
    dsimp only
    split
    · next hsome =>
      rw [hnone] at hsome
      cases hsome
    · rfl

/-- A row is refused if its length is not the one stated, or not one that an availability has. -/
theorem ofBitset_eq_error_iff {e : Precondition} :
    ofBitset bits length topology = .error e ↔
      bits.size ≠ length ∧ e = .bitsetLength bits.size length ∨
        bits.size = length ∧ ¬ HasLength length topology ∧ e = wrongLength length topology := by
  by_cases hsize : bits.size = length
  · by_cases h : HasLength length topology
    · obtain ⟨a, ha, -⟩ := exists_ofBitset_eq_ok hsize h
      rw [ha]
      simp [hsize, h]
    · rw [ofBitset_of_not_hasLength hsize h]
      simp [hsize, h, eq_comm]
  · have herror : ofBitset bits length topology = .error (.bitsetLength bits.size length) :=
      if_pos hsize
    rw [herror]
    simp [hsize, eq_comm]

theorem exists_ofBitset_eq_ok_iff :
    (∃ a, ofBitset bits length topology = .ok a) ↔
      bits.size = length ∧ HasLength length topology := by
  constructor
  · rintro ⟨a, ha⟩
    by_contra hbad
    by_cases hsize : bits.size = length
    · rw [ofBitset_of_not_hasLength hsize fun h => hbad ⟨hsize, h⟩] at ha
      cases ha
    · rw [ofBitset_eq_error_iff.2 (.inl ⟨hsize, rfl⟩)] at ha
      cases ha
  · rintro ⟨hsize, h⟩
    obtain ⟨a, ha, -⟩ := exists_ofBitset_eq_ok hsize h
    exact ⟨a, ha⟩

theorem isSplit_of_ofBitset (h : ofBitset bits length topology = .ok a) :
    IsSplit bits topology a := by
  obtain ⟨hsize, hlength⟩ := exists_ofBitset_eq_ok_iff.1 ⟨a, h⟩
  obtain ⟨b, hb, hsplit⟩ := exists_ofBitset_eq_ok hsize hlength
  cases h.symm.trans hb
  exact hsplit

/-! ## Back to levels -/

/-- An availability that was made from checked rows, from quadrants or from leaves. -/
inductive IsMade (a : Availability) : Prop
  | rows {rows : List Bitset} {topology : Topology} (h : ofRows rows topology = .ok a)
  | quadrants {parts : List Availability} {topology : Topology} {content : Bool}
      (h : concatenate parts topology content = .ok a)
  | tileLeaves {leaves : Bitset} {leafCount : Nat} (h : ofTileLeaves leaves leafCount = .ok a)
  | contentLeaves {leaves : Bitset} {leafCount : Nat} {minContentLevel : Int}
      (h : ofContentLeaves leaves leafCount minContentLevel = .ok a)

theorem exists_ofRows_of_concatenate {parts : List Availability} {content : Bool}
    (h : concatenate parts topology content = .ok a) : ∃ rows, ofRows rows topology = .ok a := by
  unfold concatenate at h
  split at h
  · cases h
  · dsimp only at h
    split at h
    · split at h <;> cases h
    · cases topology with
      | pyramid => exact ⟨_, h⟩
      | children => exact ⟨_, h⟩

theorem exists_ofRows_of_reduce {leaves : Bitset} {leafCount : Nat} {keep : Nat → Bool}
    (h : reduce leaves leafCount keep = .ok a) : ∃ rows, ofRows rows .pyramid = .ok a := by
  unfold reduce at h
  split at h
  · cases h
  · split at h
    · cases h
    · exact ⟨_, h⟩

theorem IsMade.exists_ofRows (h : IsMade a) : ∃ rows topology, ofRows rows topology = .ok a := by
  cases h with
  | rows h => exact ⟨_, _, h⟩
  | quadrants h =>
    obtain ⟨rows, hrows⟩ := exists_ofRows_of_concatenate h
    exact ⟨rows, _, hrows⟩
  | tileLeaves h =>
    obtain ⟨rows, hrows⟩ := exists_ofRows_of_reduce h
    exact ⟨rows, _, hrows⟩
  | contentLeaves h =>
    obtain ⟨rows, hrows⟩ := exists_ofRows_of_reduce h
    exact ⟨rows, _, hrows⟩

theorem levelCount_pos_of_ofRows {rows : List Bitset} (h : ofRows rows topology = .ok a)
    (ht : a.topology = .pyramid) : 1 ≤ a.levelCount := by
  cases topology with
  | pyramid =>
    unfold ofRows at h
    dsimp only at h
    split at h
    · cases h
    · next hne =>
      split at h
      · cases h
      · cases h
        exact List.length_pos_iff.2 (by simpa using hne)
  | children =>
    unfold ofRows at h
    dsimp only at h
    split at h
    · split at h
      · cases h
        cases ht
      · cases h
    · cases h

theorem IsMade.hasLength (h : IsMade a) : HasLength a.length a.topology := by
  obtain ⟨rows, topology, hrows⟩ := h.exists_ofRows
  cases ht : a.topology with
  | pyramid => exact ⟨a.levelCount, levelCount_pos_of_ofRows hrows ht, length_pyramid ht⟩
  | children => exact exists_four_pow_of_children ht

theorem ofBitset_toBitset (h : HasLength a.length a.topology) :
    ofBitset a.toBitset a.length a.topology = .ok a := by
  obtain ⟨b, hb, hsplit⟩ := exists_ofBitset_eq_ok (size_toBitset a) h
  rw [hb, ext_toBitset hsplit.topology_eq hsplit.toBitset_eq]

/-- **Flattening and splitting are inverse.** A row of bits splits exactly if it has the length that
is stated and some availability has it; otherwise it is refused. It splits into the availability
that holds its bits. Whatever was made flattens to a row that splits into it. On words of 64 bits
the same lengths are accepted. -/
theorem ofBitset_inverse_toBitset :
    (∀ (bits : Bitset) (length : Nat) (topology : Topology),
      ((∃ a, ofBitset bits length topology = .ok a) ↔
        bits.size = length ∧ HasLength length topology) ∧
      (∀ e, ofBitset bits length topology = .error e ↔
        bits.size ≠ length ∧ e = .bitsetLength bits.size length ∨
          bits.size = length ∧ ¬ HasLength length topology ∧ e = wrongLength length topology) ∧
      (∀ a, ofBitset bits length topology = .ok a → IsSplit bits topology a) ∧
      (length < 2 ^ 62 → Word.pyramidLevels? length.toUInt64 = pyramidLevels? length ∧
        Word.log4? length.toUInt64 = log4? length)) ∧
    ∀ a, IsMade a → ofBitset a.toBitset a.length a.topology = .ok a := by
  refine ⟨fun bits length topology => ⟨exists_ofBitset_eq_ok_iff, fun e => ofBitset_eq_error_iff,
    fun a ha => isSplit_of_ofBitset ha, fun hlt => ?_⟩, fun a ha => ofBitset_toBitset ha.hasLength⟩
  have hword : length.toUInt64.toNat = length := Nat.mod_eq_of_lt (by omega)
  constructor
  · rw [Word.pyramidLevels?_eq (by omega), hword]
  · rw [Word.log4?_eq, hword]

/-- Five bits make two levels, and six make none. The tiles over four leaves are read back from five
bits. -/
theorem ofBitset_inverse_toBitset_five : ∃ a tiles,
    ofBitset (.ofIndices 5 [0, 3]) 5 .pyramid = .ok a ∧ a.levelCount = 2 ∧
    (a.row 1).get 2 = true ∧ a.cardinality = 2 ∧
    ofBitset (.empty 6) 6 .pyramid = .error (.unbalancedPyramid 6) ∧
    5 < 2 ^ 62 ∧ Word.pyramidLevels? 5 = some 2 ∧
    ofTileLeaves (.ofIndices 4 [1]) 4 = .ok tiles ∧
    ofBitset tiles.toBitset tiles.length tiles.topology = .ok tiles := by
  obtain ⟨hiff, -, hsplit, hword⟩ :=
    ofBitset_inverse_toBitset.1 (.ofIndices 5 [0, 3]) 5 .pyramid
  obtain ⟨a, ha⟩ := hiff.2 ⟨rfl, 2, by decide, rfl⟩
  obtain ⟨hsize, hbit⟩ := (hsplit a ha).bit_eq rfl
  have hlevels : a.levelCount = 2 := pyramidLength_injective hsize.symm
  have hsix : ¬ HasLength 6 .pyramid := by
    intro h
    obtain ⟨levels, hlevels⟩ := h
    cases pyramidLevels?_eq_some_iff.2 hlevels
  have hleaves : (Bitset.ofIndices 4 [1]).size = 4 ^ 1 := rfl
  obtain ⟨tiles, htiles, -⟩ := reduce_eq_ok hleaves fun _ => true
  refine ⟨a, tiles, ha, hlevels, ?_, ?_, ?_, by decide, ?_, htiles,
    ofBitset_inverse_toBitset.2 tiles (.tileLeaves htiles)⟩
  · rw [hbit 1 (by omega) 2 (by decide)]
    decide
  · rw [(hsplit a ha).cardinality_eq]
    decide
  · exact ((ofBitset_inverse_toBitset.1 (.empty 6) 6 .pyramid).2.1 _).2 (.inr ⟨rfl, hsix, rfl⟩)
  · exact (hword (by decide)).1

end ImplicitTiling.Availability
