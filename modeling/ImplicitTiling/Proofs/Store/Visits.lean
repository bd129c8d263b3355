import ImplicitTiling.Proofs.Store.Occupied
import Mathlib.Data.List.Nodup

/-!
# The traversal of the tiles

Which tiles a request asks for, and which rank roots it builds, follows from which tiles exist and
which rank roots the cache serves: `visitFrom` and `rebuiltFrom` say so, node by node, without
ranks, locks and bytes. Whatever is asked for stands below existing tiles only (`visited_of_mem`),
nothing is asked for twice (`nodup_visitFrom`), and built are the rank roots that the way down leads
to and that are not served (`mem_rebuiltFrom_iff`).
-/

namespace ImplicitTiling

/-- The node of a level that stands above a node. -/
def Node.ancestor (n : Node) (level : Nat) : Node :=
  .ofNat level (n.index.toNat / 4 ^ (n.level - level))

namespace Store

variable {s : Schedule} {E skips : Node → Bool} {level index depth : Nat} {n : Node}

/-! ## Nodes below a node -/

/-- The node has this level and index or stands below the node that has them. -/
def AtOrBelow (level index : Nat) (n : Node) : Prop :=
  level ≤ n.level ∧ n.index.toNat / 4 ^ (n.level - level) = index

namespace AtOrBelow

theorem ancestor_eq (h : AtOrBelow level index n) : n.ancestor level = .ofNat level index :=
  congrArg (Node.ofNat level) h.2

theorem index_eq {index' : Nat} (h : AtOrBelow level index n) (h' : AtOrBelow level index' n) :
    index = index' :=
  h.2.symm.trans h'.2

theorem eq_ofNat (h : AtOrBelow level index n) (hl : n.level = level) :
    n = .ofNat level index := by
  subst hl
  have hindex := h.2
  rw [Nat.sub_self, Nat.pow_zero, Nat.div_one] at hindex
  rw [← hindex, Node.ofNat_toNat]

theorem above {level' index' : Nat} (h : AtOrBelow level' index' n) (hl : level ≤ level')
    (hi : index' / 4 ^ (level' - level) = index) : AtOrBelow level index n := by
  obtain ⟨hle, rfl⟩ := h
  exact ⟨by omega, (div_div_levels n.index.toNat hl hle).trans hi⟩

theorem parent {q : Nat} (h : AtOrBelow (level + 1) (4 * index + q) n) (hq : q < 4) :
    AtOrBelow level index n := by
  refine h.above (Nat.le_succ level) ?_
  rw [Nat.add_sub_cancel_left, Nat.pow_one]
  omega

theorem exists_quadrant (h : AtOrBelow level index n) (hlt : level < n.level) :
    ∃ q < 4, AtOrBelow (level + 1) (4 * index + q) n := by
  obtain ⟨-, rfl⟩ := h
  refine ⟨n.index.toNat / 4 ^ (n.level - (level + 1)) % 4, Nat.mod_lt _ (by decide), hlt, ?_⟩
  rw [div_div_levels n.index.toNat (Nat.le_add_right level 1) hlt, Nat.add_sub_cancel_left,
    Nat.pow_one, Nat.div_add_mod]

theorem index_lt (h : AtOrBelow level index n) (hi : index < 4 ^ level) :
    n.index.toNat < 4 ^ n.level := by
  obtain ⟨hle, rfl⟩ := h
  have hsplit : 4 ^ n.level = 4 ^ level * 4 ^ (n.level - level) := by
    rw [← Nat.pow_add]
    congr 1
    omega
  rw [hsplit]
  exact Nat.lt_mul_of_div_lt hi (four_pow_pos _)

end AtOrBelow

theorem atOrBelow_descendant {i : Nat} (hl : level + depth ≤ 32) (hi : index < 4 ^ level)
    (h : i < 4 ^ depth) :
    AtOrBelow level index (.ofNat (level + depth) (4 ^ depth * index + i)) := by
  refine ⟨Nat.le_add_right level depth, ?_⟩
  rw [Node.toNat_index_ofNat hl (Node.descendant_lt hi h)]
  show _ / 4 ^ (level + depth - level) = index
  rw [Nat.add_sub_cancel_left, Nat.mul_add_div (four_pow_pos _), Nat.div_eq_of_lt h, Nat.add_zero]

theorem atOrBelow_self (hl : level ≤ 32) (hi : index < 4 ^ level) :
    AtOrBelow level index (.ofNat level index) := by
  have hl' : level + 0 ≤ 32 := hl
  have h := atOrBelow_descendant hl' hi Nat.one_pos
  rwa [Nat.add_zero, Nat.pow_zero, Nat.one_mul, Nat.add_zero] at h

theorem toNat_lt_of_mem_quadrants {q : UInt64} (hq : q ∈ quadrants) : q.toNat < 4 := by
  simp only [quadrants, List.mem_cons, List.not_mem_nil, or_false] at hq
  rcases hq with rfl | rfl | rfl | rfl <;> decide

theorem child_of_mem_quadrants (hl : level < 32) (hi : index < 4 ^ level) {q : UInt64}
    (hq : q ∈ quadrants) :
    (Node.ofNat level index).child q = .ofNat (level + 1) (4 * index + q.toNat) := by
  rw [← Node.child_ofNat hl hi (toNat_lt_of_mem_quadrants hq)]
  congr 1
  exact (UInt64.ofNat_toNat).symm

theorem mem_flatMap_quadrants (f : Node → List Node) (hl : level < 32) (hi : index < 4 ^ level) :
    n ∈ quadrants.flatMap (fun q => f ((Node.ofNat level index).child q)) ↔
      ∃ q < 4, n ∈ f (.ofNat (level + 1) (4 * index + q)) := by
  rw [List.mem_flatMap]
  constructor
  · rintro ⟨q, hq, hn⟩
    rw [child_of_mem_quadrants hl hi hq] at hn
    exact ⟨q.toNat, toNat_lt_of_mem_quadrants hq, hn⟩
  · rintro ⟨q, hq, hn⟩
    have hmem : ∀ q < 4, q.toUInt64 ∈ quadrants := by decide
    rw [← Node.child_ofNat hl hi hq] at hn
    exact ⟨q.toUInt64, hmem q hq, hn⟩

/-! ## The traversal -/

/-- The tiles that are asked for in a quadrant, unless it is a rank root that is skipped. -/
def visitNext (s : Schedule) (skips : Node → Bool) (visit : Node → List Node) (n : Node) :
    List Node :=
  if s.isRankRoot n.level && skips n then [] else visit n

/-- The tiles that are asked for from a node on that stands `depth` levels above the roots of the
deepest rank: the node; if it exists, its quadrants in turn; and below an existing root of the
deepest rank its leaves. -/
def visitFrom (s : Schedule) (E skips : Node → Bool) : Nat → Node → List Node
  | 0, n =>
    n :: if E n then
      (List.range (4 ^ (s.subtreeLevels - 1))).map (n.descendant (s.subtreeLevels - 1))
    else []
  | depth + 1, n =>
    n :: if E n then
      quadrants.flatMap fun q => visitNext s skips (visitFrom s E skips depth) (n.child q)
    else []

/-- The rank roots in a quadrant that are built and saved: a rank root comes after those below it,
unless it is skipped. -/
def rebuiltNext (s : Schedule) (skips : Node → Bool) (rebuilt : Node → List Node) (n : Node) :
    List Node :=
  if s.isRankRoot n.level then
    if skips n then [] else rebuilt n ++ [n]
  else rebuilt n

/-- The rank roots below a node that are built and saved, in the order in which they are saved. -/
def rebuiltFrom (s : Schedule) (E skips : Node → Bool) : Nat → Node → List Node
  | 0, _ => []
  | depth + 1, n =>
    if E n then
      quadrants.flatMap fun q => rebuiltNext s skips (rebuiltFrom s E skips depth) (n.child q)
    else []

theorem visitFrom_succ (depth : Nat) (n : Node) : visitFrom s E skips (depth + 1) n =
    n :: if E n then
      quadrants.flatMap fun q => visitNext s skips (visitFrom s E skips depth) (n.child q)
    else [] :=
  rfl

theorem rebuiltFrom_succ (depth : Nat) (n : Node) : rebuiltFrom s E skips (depth + 1) n =
    if E n then
      quadrants.flatMap fun q => rebuiltNext s skips (rebuiltFrom s E skips depth) (n.child q)
    else [] :=
  rfl

theorem mem_of_mem_visitNext {visit : Node → List Node} {c : Node}
    (h : n ∈ visitNext s skips visit c) : n ∈ visit c := by
  unfold visitNext at h
  split at h
  · cases h
  · exact h

theorem mem_rebuiltNext_iff {rebuilt : Node → List Node} {c : Node} :
    n ∈ rebuiltNext s skips rebuilt c ↔
      if s.isRankRoot c.level then skips c = false ∧ (n ∈ rebuilt c ∨ n = c)
      else n ∈ rebuilt c := by
  unfold rebuiltNext
  split
  · cases skips c <;> simp
  · rfl

/-! ## What is asked for -/

/-- The node stands at or below a node and no deeper than the leaves, and the nodes above it exist
from there down to level `last`, that of the roots of the deepest rank. -/
structure Visited (s : Schedule) (E : Node → Bool) (level index last : Nat) (n : Node) : Prop where
  below : AtOrBelow level index n
  level_le : n.level ≤ last + (s.subtreeLevels - 1)
  exists_above : ∀ level', level ≤ level' → level' < n.level → level' ≤ last →
    E (n.ancestor level') = true

theorem visited_self {last : Nat} (hl : level ≤ 32) (hi : index < 4 ^ level)
    (hlast : level ≤ last) : Visited s E level index last (.ofNat level index) where
  below := atOrBelow_self hl hi
  level_le := Nat.le_trans hlast (Nat.le_add_right _ _)
  exists_above _ hle hlt _ := absurd hlt (Nat.not_lt.2 hle)

theorem Visited.parent {last q : Nat} (h : Visited s E (level + 1) (4 * index + q) last n)
    (hq : q < 4) (hE : E (.ofNat level index) = true) : Visited s E level index last n where
  below := h.below.parent hq
  level_le := h.level_le
  exists_above level' hle hlt hlast := by
    rcases Nat.eq_or_lt_of_le hle with rfl | hle
    · rw [(h.below.parent hq).ancestor_eq]
      exact hE
    · exact h.exists_above level' hle hlt hlast

theorem visited_leaf {i : Nat} (hl : level + (s.subtreeLevels - 1) < 32) (hi : index < 4 ^ level)
    (hE : E (.ofNat level index) = true) (h : i < 4 ^ (s.subtreeLevels - 1)) :
    Visited s E level index level
      ((Node.ofNat level index).descendant (s.subtreeLevels - 1) i) := by
  rw [Node.descendant_ofNat hl hi h]
  have hbelow := atOrBelow_descendant (Nat.le_of_lt hl) hi h
  refine ⟨hbelow, Nat.le_refl _, ?_⟩
  intro level' hle _ hlast
  rw [Nat.le_antisymm hlast hle, hbelow.ancestor_eq]
  exact hE

theorem visited_of_mem (hl : level + depth + (s.subtreeLevels - 1) < 32)
    (hi : index < 4 ^ level) (h : n ∈ visitFrom s E skips depth (.ofNat level index)) :
    Visited s E level index (level + depth) n := by
  induction depth generalizing level index with
  | zero =>
    rcases List.mem_cons.1 h with rfl | h
    · exact visited_self (by omega) hi (Nat.le_refl _)
    · split at h
      · next hE =>
        obtain ⟨i, hmem, rfl⟩ := List.mem_map.1 h
        exact visited_leaf hl hi hE (List.mem_range.1 hmem)
      · cases h
  | succ depth ih =>
    rw [visitFrom_succ] at h
    rcases List.mem_cons.1 h with rfl | h
    · exact visited_self (by omega) hi (Nat.le_add_right _ _)
    · split at h
      · next hE =>
        obtain ⟨q, hq, hmem⟩ := (mem_flatMap_quadrants _ (by omega) hi).1 h
        have hvisited := ih (by omega) (Node.child_lt hi hq) (mem_of_mem_visitNext hmem)
        rw [show level + (depth + 1) = level + 1 + depth by omega]
        exact hvisited.parent hq hE
      · cases h

/-- What is asked for in a quadrant stands in it. -/
theorem atOrBelow_of_mem_visitNext {q : Nat} (hl : level + 1 + depth + (s.subtreeLevels - 1) < 32)
    (hi : index < 4 ^ level) (hq : q < 4)
    (h : n ∈ visitNext s skips (visitFrom s E skips depth) (.ofNat (level + 1) (4 * index + q))) :
    AtOrBelow (level + 1) (4 * index + q) n :=
  (visited_of_mem hl (Node.child_lt hi hq) (mem_of_mem_visitNext h)).below

theorem nodup_leaves (hl : level + depth < 32) (hi : index < 4 ^ level) :
    ((List.range (4 ^ depth)).map ((Node.ofNat level index).descendant depth)).Nodup := by
  refine List.nodup_range.map_on ?_
  intro i hi' j hj' heq
  rw [List.mem_range] at hi' hj'
  rw [Node.descendant_ofNat hl hi hi', Node.descendant_ofNat hl hi hj'] at heq
  have hindex := (Node.ofNat_inj (Nat.le_of_lt hl) (Node.descendant_lt hi hi')
    (Node.descendant_lt hi hj') heq).2
  exact Nat.add_left_cancel hindex

/-- **No tile is asked for twice**, unless the roots of the deepest rank are its leaves as well. -/
theorem nodup_visitFrom (h2 : 2 ≤ s.subtreeLevels)
    (hl : level + depth + (s.subtreeLevels - 1) < 32) (hi : index < 4 ^ level) :
    (visitFrom s E skips depth (.ofNat level index)).Nodup := by
  induction depth generalizing level index with
  | zero =>
    unfold visitFrom
    split
    · refine List.nodup_cons.2 ⟨?_, nodup_leaves hl hi⟩
      intro hmem
      obtain ⟨i, -, heq⟩ := List.mem_map.1 hmem
      have hlevel : level + (s.subtreeLevels - 1) = level := congrArg Node.level heq
      omega
    · exact List.nodup_singleton _
  | succ depth ih =>
    have hquadrant {q : Nat} (hq : q < 4) {n : Node}
        (h : n ∈ visitNext s skips (visitFrom s E skips depth)
          (.ofNat (level + 1) (4 * index + q))) : AtOrBelow (level + 1) (4 * index + q) n :=
      atOrBelow_of_mem_visitNext (by omega) hi hq h
    rw [visitFrom_succ]
    split
    · -- All that is asked for in a quadrant stands in it: below the node, and in no other quadrant.
      refine List.nodup_cons.2 ⟨?_, List.nodup_flatMap.2 ⟨?_, ?_⟩⟩
      · intro hmem
        obtain ⟨q, hq, hmem⟩ := (mem_flatMap_quadrants _ (by omega) hi).1 hmem
        exact absurd (hquadrant hq hmem).1 (Nat.not_succ_le_self level)
      · intro q hq
        have hq4 := toNat_lt_of_mem_quadrants hq
        rw [child_of_mem_quadrants (by omega) hi hq]
        unfold visitNext
        split
        · exact List.nodup_nil
        · exact ih (by omega) (Node.child_lt hi hq4)
      · have hnodup : quadrants.Nodup := by decide
        refine hnodup.imp_of_mem ?_
        intro q q' hq hq' hne n hmem hmem'
        dsimp only at hmem hmem'
        rw [child_of_mem_quadrants (by omega) hi hq] at hmem
        rw [child_of_mem_quadrants (by omega) hi hq'] at hmem'
        have hindex := (hquadrant (toNat_lt_of_mem_quadrants hq) hmem).index_eq
          (hquadrant (toNat_lt_of_mem_quadrants hq') hmem')
        exact hne (UInt64.toNat_inj.1 (by omega))
    · exact List.nodup_singleton _

/-! ## What is built -/

/-- The way down from a node leads to a rank root below it: every node on the way exists, and no
rank root on the way is skipped. -/
structure Resolves (s : Schedule) (E skips : Node → Bool) (level index : Nat) (n : Node) :
    Prop where
  level_lt : level < n.level
  below : AtOrBelow level index n
  root : s.isRankRoot n.level = true
  exists_above : ∀ level', level ≤ level' → level' < n.level → E (n.ancestor level') = true
  resolved_above : ∀ level', level < level' → level' < n.level → s.isRankRoot level' = true →
    skips (n.ancestor level') = false

namespace Resolves

/-- The way down goes through a quadrant of the node, and ends there or goes on. -/
theorem quadrant (h : Resolves s E skips level index n) :
    E (.ofNat level index) = true ∧ ∃ q < 4,
      s.isRankRoot (level + 1) = true ∧ n = .ofNat (level + 1) (4 * index + q) ∨
      (s.isRankRoot (level + 1) = true → skips (.ofNat (level + 1) (4 * index + q)) = false) ∧
        Resolves s E skips (level + 1) (4 * index + q) n := by
  obtain ⟨hlt, hbelow, hroot, hexists, hresolved⟩ := h
  obtain ⟨q, hq, hquadrant⟩ := hbelow.exists_quadrant hlt
  have hE := hexists level (Nat.le_refl _) hlt
  rw [hbelow.ancestor_eq] at hE
  refine ⟨hE, q, hq, ?_⟩
  rcases Nat.eq_or_lt_of_le (Nat.succ_le_of_lt hlt) with heq | hlt'
  · have hlevel : n.level = level + 1 := heq.symm
    exact .inl ⟨hlevel ▸ hroot, hquadrant.eq_ofNat hlevel⟩
  · refine .inr ⟨?_, hlt', hquadrant, hroot, ?_, ?_⟩
    · intro hroot'
      have hskips := hresolved (level + 1) (Nat.lt_succ_self _) hlt' hroot'
      rwa [hquadrant.ancestor_eq] at hskips
    · intro level' hle
      exact hexists level' (Nat.le_of_succ_le hle)
    · intro level' hlt
      exact hresolved level' (Nat.lt_of_succ_lt hlt)

theorem of_child {q : Nat} (hl : level < 32) (hi : index < 4 ^ level) (hq : q < 4)
    (hE : E (.ofNat level index) = true) (hroot : s.isRankRoot (level + 1) = true) :
    Resolves s E skips level index (.ofNat (level + 1) (4 * index + q)) := by
  have hbelow := (atOrBelow_self (Nat.succ_le_of_lt hl) (Node.child_lt hi hq)).parent hq
  refine ⟨Nat.lt_succ_self level, hbelow, hroot, ?_, ?_⟩
  · intro level' hle hlt
    rw [← Nat.le_antisymm hle (Nat.le_of_lt_succ hlt), hbelow.ancestor_eq]
    exact hE
  · intro level' hlt hlt'
    exact absurd hlt (Nat.not_lt.2 (Nat.le_of_lt_succ hlt'))

theorem parent {q : Nat} (h : Resolves s E skips (level + 1) (4 * index + q) n) (hq : q < 4)
    (hE : E (.ofNat level index) = true)
    (hskips : s.isRankRoot (level + 1) = true →
      skips (.ofNat (level + 1) (4 * index + q)) = false) :
    Resolves s E skips level index n := by
  obtain ⟨hlt, hquadrant, hroot, hexists, hresolved⟩ := h
  have hbelow := hquadrant.parent hq
  refine ⟨Nat.lt_of_succ_lt hlt, hbelow, hroot, ?_, ?_⟩
  · intro level' hle hlt'
    rcases Nat.eq_or_lt_of_le hle with rfl | hle
    · rw [hbelow.ancestor_eq]
      exact hE
    · exact hexists level' hle hlt'
  · intro level' hlt' hlt'' hroot'
    rcases Nat.eq_or_lt_of_le (Nat.succ_le_of_lt hlt') with rfl | hlt'
    · rw [hquadrant.ancestor_eq]
      exact hskips hroot'
    · exact hresolved level' hlt' hlt'' hroot'

end Resolves

/-- **Built are the rank roots that the way down leads to**, unless they are skipped themselves. -/
theorem mem_rebuiltFrom_iff (hs : s.Valid) (hl : level + depth = s.maxRankRoot)
    (hi : index < 4 ^ level) :
    n ∈ rebuiltFrom s E skips depth (.ofNat level index) ↔
      Resolves s E skips level index n ∧ skips n = false := by
  have hmax := hs.maxRankRoot_lt
  induction depth generalizing level index with
  | zero =>
    -- Below the roots of the deepest rank there is no rank root.
    refine iff_of_false List.not_mem_nil ?_
    rintro ⟨h, -⟩
    have hle := hs.le_maxRankRoot h.root
    have hlt := h.level_lt
    omega
  | succ depth ih =>
    have hnext {q : Nat} (hq : q < 4) :
        n ∈ rebuiltFrom s E skips depth (.ofNat (level + 1) (4 * index + q)) ↔
          Resolves s E skips (level + 1) (4 * index + q) n ∧ skips n = false :=
      ih (by omega) (Node.child_lt hi hq)
    rw [rebuiltFrom_succ]
    constructor
    · intro h
      split at h
      · next hE =>
        obtain ⟨q, hq, hmem⟩ := (mem_flatMap_quadrants _ (by omega) hi).1 h
        rw [mem_rebuiltNext_iff, hnext hq] at hmem
        split at hmem
        · next hroot =>
          rcases hmem with ⟨hskips, ⟨hresolves, hn⟩ | rfl⟩
          · exact ⟨hresolves.parent hq hE fun _ => hskips, hn⟩
          · exact ⟨.of_child (by omega) hi hq hE hroot, hskips⟩
        · next hroot => exact ⟨hmem.1.parent hq hE fun h => absurd h hroot, hmem.2⟩
      · cases h
    · rintro ⟨hresolves, hn⟩
      obtain ⟨hE, q, hq, hcases⟩ := hresolves.quadrant
      rw [if_pos hE, mem_flatMap_quadrants _ (by omega) hi]
      refine ⟨q, hq, mem_rebuiltNext_iff.2 ?_⟩
      rw [hnext hq]
      rcases hcases with ⟨hroot, rfl⟩ | ⟨hskips, hresolves⟩
      · exact (if_pos hroot).mpr ⟨hn, .inr rfl⟩
      · split
        · next hroot => exact ⟨hskips hroot, .inl ⟨hresolves, hn⟩⟩
        · exact ⟨hresolves, hn⟩

theorem atOrBelow_of_mem_rebuiltNext (hs : s.Valid) (hl : level + depth = s.maxRankRoot)
    (hi : index < 4 ^ level)
    (h : n ∈ rebuiltNext s skips (rebuiltFrom s E skips depth) (.ofNat level index)) :
    AtOrBelow level index n := by
  have hmax := hs.maxRankRoot_lt
  rw [mem_rebuiltNext_iff, mem_rebuiltFrom_iff hs hl hi] at h
  split at h
  · rcases h.2 with ⟨hresolves, -⟩ | rfl
    · exact hresolves.below
    · exact atOrBelow_self (by omega) hi
  · exact h.1.below

/-! ## Requests -/

/-- The tiles that are asked for from a node on, where some rank roots are skipped. -/
def visit (s : Schedule) (E skips : Node → Bool) (n : Node) : List Node :=
  visitFrom s E skips (s.maxRankRoot - n.level) n

/-- The rank roots below a node that are built and saved, where some are skipped. -/
def rebuilt (s : Schedule) (E skips : Node → Bool) (n : Node) : List Node :=
  rebuiltFrom s E skips (s.maxRankRoot - n.level) n

/-- The traversal from level to level. -/
theorem visit_eq (s : Schedule) (E skips : Node → Bool) (n : Node) :
    visit s E skips n = n :: if E n then
      if n.level < s.maxRankRoot then
        quadrants.flatMap fun q =>
          if s.isRankRoot (n.child q).level && skips (n.child q) then []
          else visit s E skips (n.child q)
      else (List.range (4 ^ (s.subtreeLevels - 1))).map (n.descendant (s.subtreeLevels - 1))
    else [] := by
  unfold visit
  by_cases h : n.level < s.maxRankRoot
  · obtain ⟨depth, hdepth⟩ : ∃ depth, s.maxRankRoot - n.level = depth + 1 :=
      ⟨s.maxRankRoot - (n.level + 1), by omega⟩
    have hchild (q : UInt64) : s.maxRankRoot - (n.child q).level = depth := by
      show s.maxRankRoot - (n.level + 1) = depth
      omega
    simp only [hdepth, if_pos h, hchild]
    rfl
  · rw [if_neg h, Nat.sub_eq_zero_of_le (Nat.not_lt.1 h)]
    rfl

/-- A rank root with the depth of its traversal. -/
theorem visit_node (hs : s.Valid) (E skips : Node → Bool) {t : Tile}
    (hroot : s.isRankRoot t.level = true) :
    ∃ depth, t.level + depth = s.maxRankRoot ∧
      visit s E skips t.node = visitFrom s E skips depth (.ofNat t.level t.morton.toNat) := by
  refine ⟨s.maxRankRoot - t.level, Nat.add_sub_cancel' (hs.le_maxRankRoot hroot), ?_⟩
  rw [← t.node_eq_ofNat]
  rfl

theorem mem_rebuilt_iff (hs : s.Valid) {t : Tile} (hroot : s.isRankRoot t.level = true) :
    n ∈ rebuilt s E skips t.node ↔
      Resolves s E skips t.level t.morton.toNat n ∧ skips n = false := by
  have hdepth := Nat.add_sub_cancel' (hs.le_maxRankRoot hroot)
  rw [← mem_rebuiltFrom_iff hs hdepth t.morton_lt, ← t.node_eq_ofNat]
  rfl

end Store

end ImplicitTiling
