import ImplicitTiling.Proofs.Store.Checked
import ImplicitTiling.Proofs.Store.Contract
import ImplicitTiling.Proofs.Store.Visits

/-!
# The recursion ends and stays in range

For a valid schedule the recursion with checked arithmetic never stops short (`request_in_range`).
What comes out is the routine of the store, and every call on the way is for a tile between the
requested level and the last one, and for a rank of the schedule. Behind this is one fact: every rank
root is some whole ranks above the deepest (`RootLevel`), so the way from one rank to the next meets
the level of the deepest roots, and there the recursion ends.
-/

namespace ImplicitTiling.Store.Checked

variable {α β : Type}

/-! ## Which nodes a routine asks about -/

/-- Requests about nodes that fulfil `p`. Each may be answered in every way. -/
def about (p : Node → Prop) : Contract where
  asks
    | .query n => p n
    | .fetch n => p n
    | .save n _ => p n
    | .lock n => p n
    | .unlock n => p n
    | .note _ => True
  answers _ _ := True

/-- Whatever it is answered, all requests of the routine are about nodes that fulfil `p`. -/
def Stays (p : Node → Prop) (b : Build α) : Prop :=
  b.Meets (about p) True fun _ => True

section

open Build

variable {p : Node → Prop} {n : Node}

theorem outcome_true (r : Except Error α) : Outcome True (fun _ => True) r := by
  cases r <;> trivial

theorem stays_done (r : Except Error α) : Stays p (.mk (.done r)) :=
  outcome_true r

theorem Stays.bind {b : Build α} {f : α → Build β} (h : Stays p b) (hf : ∀ a, Stays p (f a)) :
    Stays p (b >>= f) :=
  Meets.bind h fun a _ => hf a

theorem stays_query (hn : p n) : Stays p (query n) :=
  Meets.ask (.query n) hn fun r _ => outcome_true r

theorem stays_fetch (hn : p n) : Stays p (fetch n) :=
  Meets.ask (.fetch n) hn fun r _ => outcome_true r

theorem stays_save (hn : p n) (blob : ByteArray) : Stays p (save n blob) :=
  Meets.ask (.save n blob) hn fun r _ => outcome_true r

theorem stays_note (r : Record) : Stays p (note r) :=
  Meets.ask (.note r) trivial fun _ _ => trivial

theorem Stays.withLock {body : Build α} (hn : p n) (h : Stays p body) :
    Stays p (withLock n body) :=
  Meets.withLock hn hn h

theorem stays_mapM {ι : Type} {f : ι → Build α} {items : List ι}
    (h : ∀ i ∈ items, Stays p (f i)) : Stays p (items.mapM f) := by
  induction items with
  | nil => exact stays_done _
  | cons i items ih =>
    obtain ⟨hi, hitems⟩ := List.forall_mem_cons.1 h
    rw [List.mapM_cons]
    exact hi.bind fun _ => (ih hitems).bind fun _ => stays_done _

theorem stays_buildDeepest (s : Schedule) (hn : p n)
    (hleaf : ∀ i < 4 ^ (s.subtreeLevels - 1), p (n.descendant (s.subtreeLevels - 1) i)) :
    Stays p (buildDeepest s n) := by
  refine (stays_query hn).bind fun found => ?_
  cases found with
  | false => exact (stays_note _).bind fun _ => stays_done _
  | true =>
    have hleaves : Stays p (scanLeaves n (s.subtreeLevels - 1)) := by
      refine Meets.foldlM_range (fun _ _ => True) _ (fun i hi _ _ => ?_) trivial
      exact (stays_query (hleaf i hi)).bind fun _ => stays_done _
    exact hleaves.bind fun _ => (stays_done _).bind fun _ => (stays_done _).bind fun _ =>
      stays_done _

theorem stays_gather {levels : Nat} {below : List (Build Subtree)} (hn : p n)
    (hbelow : ∀ b ∈ below, Stays p b) : Stays p (gather n levels below) := by
  refine (stays_query hn).bind fun found => ?_
  cases found with
  | false => exact (stays_note _).bind fun _ => stays_done _
  | true =>
    by_cases h : 1 < levels
    · simp only [if_pos h, if_true]
      exact (stays_mapM hbelow).bind fun _ => stays_done _
    · simp only [if_neg h, if_true]
      refine (stays_mapM fun b hb => (hbelow b hb).bind fun _ => stays_done _).bind fun _ => ?_
      exact (stays_done _).bind fun _ => stays_done _

theorem stays_buildAndSave {build : Node → Build Subtree} (hn : p n) (h : Stays p (build n)) :
    Stays p (buildAndSave build n) :=
  h.bind fun _ => (stays_save hn _).bind fun _ => (stays_note _).bind fun _ => stays_done _

theorem stays_resolve (s : Schedule) {build : Node → Build Subtree} (hn : p n)
    (h : Stays p (build n)) : Stays p (Store.resolve s build n) := by
  have hfetch : Stays p (fetchDecoded s n) := by
    unfold fetchDecoded
    split
    · exact stays_done _
    refine (stays_fetch hn).bind fun found => ?_
    cases found with
    | none => exact stays_done _
    | some bytes =>
      cases hdecode : Subtree.decode bytes s.subtreeLevels with
      | ok subtree =>
        simp only [hdecode]
        exact stays_done _
      | error cause =>
        simp only [hdecode]
        exact (stays_note _).bind fun _ => stays_done _
  refine Stays.withLock hn (hfetch.bind fun found => ?_)
  cases found with
  | some subtree => exact stays_done _
  | none => exact (stays_buildAndSave hn h).bind fun _ => stays_done _

theorem stays_get {s : Schedule} {t : Tile} (hn : p t.node)
    (h : Stays p (buildRank s (s.ranksBelow t.level) t.node)) : Stays p (get s t) := by
  rcases get_cases s t with ⟨-, e, hget⟩ | ⟨hroot, hin⟩
  · rw [hget]
    exact stays_done _
  rw [get_eq_withLock hroot hin]
  have hfetch : Stays p (fetchBytes s t.node) := by
    unfold fetchBytes
    split
    · exact stays_done _
    · exact stays_fetch hn
  refine Stays.withLock hn (hfetch.bind fun found => ?_)
  cases found with
  | some bytes => exact (stays_note _).bind fun _ => stays_done _
  | none => exact (stays_buildAndSave hn h).bind fun _ => stays_done _

end

/-! ## The calls of a request -/

/-- The level is that of roots of a rank, some whole ranks above the deepest. -/
def RootLevel (s : Schedule) (level : Nat) : Prop :=
  s.isRankRoot level = true ∧ ∃ ranks, level + ranks * s.subtreeLevels = s.maxRankRoot

/-- The node is one of the tiles of its level, which is none above level `top` or below the last. -/
def Within (s : Schedule) (top : Nat) (n : Node) : Prop :=
  top ≤ n.level ∧ n.level ≤ s.maxLevel ∧ n.index.toNat < 4 ^ n.level

/-- What is true of every call for a request for a tile of level `top`. -/
def InRange (s : Schedule) (top : Nat) : Call → Prop
  | .build n => Within s top n ∧ RootLevel s n.level
  | .inside n origin =>
    Within s top n ∧ RootLevel s origin ∧ origin < s.maxRankRoot ∧ origin ≤ n.level ∧
      n.level - origin < s.subtreeLevels ∧ 1 ≤ s.subtreeLevels - (n.level - origin) ∧
      s.subtreeLevels - (n.level - origin) ≤ s.subtreeLevels
  | .resolve n => Within s top n ∧ RootLevel s n.level
  | .deepest n => Within s top n ∧ n.level = s.maxRankRoot
  | .leaf root i n =>
    Within s top n ∧ n.level = s.maxLevel ∧ AtOrBelow root.level root.index.toNat n ∧
      i < 4 ^ (s.subtreeLevels - 1) ∧
      n.index.toNat = 4 ^ (s.subtreeLevels - 1) * root.index.toNat + i

section

variable {s : Schedule} {p : Call → Prop} {top level index : Nat}

theorem within_ofNat (hs : s.Valid) (htop : top ≤ level) (hmax : level ≤ s.maxLevel)
    (hi : index < 4 ^ level) : Within s top (.ofNat level index) := by
  have hlt := hs.max_lt
  exact ⟨htop, hmax, Node.index_ofNat_lt (by omega) hi⟩

theorem yields_mask (hl : level < 32) : Yields p False (mask level) () := by
  refine Yields.bind (.require (show 2 * level < 2 ^ 32 by omega)) ?_
  by_cases h : 64 ≤ 2 * level
  · rw [if_pos h]
    exact .pure rfl
  · rw [if_neg h]
    exact .bind (.require (Nat.not_le.1 h)) (.pure rfl)

theorem yields_box {n : Node} (hl : n.level < 32) : Yields p False (box n) () :=
  (yields_mask hl).bind (.bind (.require (by omega)) (.pure rfl))

theorem yields_room (hs : s.Valid) {levels : Nat} (hl : levels ≤ s.subtreeLevels) :
    Yields p False (room levels) () := by
  have hle := hs.levels_le
  exact .bind (.require (show 2 * levels < 64 by omega)) (.pure rfl)

theorem yields_lastRoot (hs : s.Valid) : Yields p False (lastRoot s) s.maxRankRoot := by
  have hmax := hs.max_lt
  have hroot := hs.maxRankRoot_add
  exact .bind (.require (show s.maxLevel + 1 < 2 ^ 32 by omega))
    (.require (show s.subtreeLevels ≤ s.maxLevel + 1 by omega))

theorem yields_childOf (hl : level < 32) (hi : index < 4 ^ level) {q : UInt64}
    (hq : q ∈ quadrants) :
    Yields p False (childOf (.ofNat level index) q)
      (.ofNat (level + 1) (4 * index + q.toNat)) := by
  rw [← child_of_mem_quadrants hl hi hq]
  refine Yields.bind (.require (show level + 1 < 2 ^ 32 by omega)) ?_
  exact .bind (.require (show 2 < 64 by decide)) (.pure rfl)

/-- The computation makes the routine `b`. Its calls are in range, some are for the deepest rank, and
all that the routine asks about is in range too. -/
structure Makes (s : Schedule) (top : Nat) (x : Checked (Build α)) (b : Build α) : Prop where
  yields : Yields (InRange s top) True x b
  stays : Stays (Within s top) b

theorem Yields.makes {x : Checked β} {f : β → Checked (Build α)} {a : β} {b : Build α}
    {reaches : Prop} (hx : Yields (InRange s top) reaches x a) (h : Makes s top (f a) b) :
    Makes s top (x >>= f) b :=
  ⟨hx.bind h.yields, h.stays⟩

/-! ### The deepest rank -/

theorem inRange_leaf (hs : s.Valid) (htop : top ≤ s.maxRankRoot)
    (hi : index < 4 ^ s.maxRankRoot) {i : Nat} (h : i < 4 ^ (s.subtreeLevels - 1)) :
    InRange s top (.leaf (.ofNat s.maxRankRoot index) i
      ((Node.ofNat s.maxRankRoot index).descendant (s.subtreeLevels - 1) i)) := by
  have hmax := hs.max_lt
  have hlevel := hs.maxRankRoot_add_pred
  have hword : s.maxRankRoot + (s.subtreeLevels - 1) ≤ 32 := by omega
  have hroot := Node.toNat_index_ofNat (Nat.le_of_lt hs.maxRankRoot_lt) hi
  have hlt := Node.descendant_lt hi h
  rw [Node.descendant_ofNat (by omega) hi h]
  refine ⟨within_ofNat hs (by omega) (Nat.le_of_eq hlevel) hlt, hlevel, ?_, h, ?_⟩
  · rw [hroot]
    exact atOrBelow_descendant hword hi h
  · rw [hroot, Node.toNat_index_ofNat hword hlt]

theorem yields_leafOf (hs : s.Valid) (htop : top ≤ s.maxRankRoot)
    (hi : index < 4 ^ s.maxRankRoot) {i : Nat} (h : i < 4 ^ (s.subtreeLevels - 1)) :
    let n := Node.ofNat s.maxRankRoot index
    Yields (InRange s top) False
      (leafOf n (s.maxRankRoot + (s.subtreeLevels - 1))
        (Morton.firstDescendant n.index (s.subtreeLevels - 1)) i)
      (i, n.descendant (s.subtreeLevels - 1) i) := by
  have hlevel : s.maxRankRoot + (s.subtreeLevels - 1) < 32 :=
    Nat.lt_of_le_of_lt (Nat.le_of_eq hs.maxRankRoot_add_pred) hs.max_lt
  have hlt := Nat.lt_of_lt_of_le (Node.descendant_lt hi h)
    (Node.four_pow_le_word (Nat.le_of_lt hlevel))
  refine Yields.bind (.require ?_) ?_
  · have hindex := Node.toNat_index_ofNat (Nat.le_of_lt hs.maxRankRoot_lt) hi
    rw [Node.toNat_firstDescendant (by omega) (Nat.le_of_lt hlevel) (hindex.trans_lt hi), hindex,
      Node.toNat_toUInt64 (by omega)]
    exact hlt
  · refine (Yields.enter (inRange_leaf hs htop hi h)).bind ?_
    exact (yields_box hlevel).bind (.pure rfl)

/-- **The deepest rank.** It ends with the last level, so its leaves are in range. -/
theorem makes_deepest (hs : s.Valid) (htop : top ≤ s.maxRankRoot)
    (hi : index < 4 ^ s.maxRankRoot) :
    Makes s top (deepest s (.ofNat s.maxRankRoot index))
      (buildDeepest s (.ofNat s.maxRankRoot index)) := by
  have hmax := hs.max_lt
  have hlast := hs.maxRankRoot_add_pred
  have hle := hs.levels_le
  have hbits : 2 * (s.subtreeLevels - 1) < 64 := by omega
  have hcount : ((1 : UInt64) <<< (2 * (s.subtreeLevels - 1)).toUInt64).toNat =
      4 ^ (s.subtreeLevels - 1) := by
    rw [show 4 ^ (s.subtreeLevels - 1) = 2 ^ (2 * (s.subtreeLevels - 1)) from
      (Nat.pow_mul 2 2 _).symm]
    exact Word.toNat_single hbits
  have hn := within_ofNat hs htop hs.maxRankRoot_le_maxLevel hi
  refine ⟨?_, stays_buildDeepest s hn fun i hi' => (inRange_leaf hs htop hi hi').1⟩
  refine ((Yields.enter ⟨hn, rfl⟩).mono fun _ => ⟨_, rfl⟩).bind_left ?_
  refine (yields_box hs.maxRankRoot_lt).bind ?_
  refine (yields_room hs (Nat.le_refl _)).bind ?_
  refine (Yields.require hs.levels_pos).bind ?_
  refine (Yields.require ?_).bind ?_
  · show s.maxRankRoot + (s.subtreeLevels - 1) < 2 ^ 32
    omega
  refine (Yields.require ?_).bind ?_
  · show 2 * (s.subtreeLevels - 1) < 2 ^ 32
    omega
  refine (Yields.require hbits).bind ?_
  refine (Yields.require hbits).bind ?_
  rw [hcount]
  have hleaves := Yields.mapM fun i hmem =>
    yields_leafOf hs htop hi (show i < 4 ^ (s.subtreeLevels - 1) from List.mem_range.1 hmem)
  refine hleaves.bind (.pure ?_)
  simp only [List.foldlM_map]
  rfl

/-! ### The ranks above -/

theorem gather_last (r : Node → Build Subtree) (n : Node) :
    gather n 1 (quadrants.map fun q => r (n.child q)) = descend r 1 n := by
  rw [gather]
  simp only [List.mapM_map]
  rfl

theorem gather_inside (r : Node → Build Subtree) (n : Node) {levels : Nat} (h : levels ≠ 0) :
    gather n (levels + 1) (quadrants.map fun q => descend r levels (n.child q)) =
      descend r (levels + 1) n := by
  rw [descend, gather]
  simp only [List.mapM_map, if_neg h, if_pos (Nat.succ_lt_succ (Nat.pos_of_ne_zero h))]
  rfl

/-- The routines of the quadrants are made, and put together. -/
theorem makes_gather {n : Node} {levels : Nat} {f : UInt64 → Checked (Build Subtree)}
    {g : UInt64 → Build Subtree} {b : Build Subtree} (hn : Within s top n)
    (h : ∀ q ∈ quadrants, Makes s top (f q) (g q)) (hb : gather n levels (quadrants.map g) = b) :
    Makes s top (do return gather n levels (← quadrants.mapM f)) b := by
  subst hb
  have hne : quadrants ≠ [] := List.cons_ne_nil _ _
  refine ⟨?_, stays_gather hn ?_⟩
  · have hbelow := Yields.mapM fun q hq => (h q hq).yields
    exact (hbelow.mono fun h => ⟨h, hne⟩).bind_left (.pure rfl)
  · intro b hb
    obtain ⟨q, hq, rfl⟩ := List.mem_map.1 hb
    exact (h q hq).stays

/-- **Inside a rank** the level is that of its roots and less than `subtreeLevels` more. `depth` says
how far the roots of the next rank nest. -/
theorem makes_inside (hs : s.Valid) {origin ranks depth levels nesting : Nat}
    (horigin : RootLevel s origin)
    (hnext : origin + s.subtreeLevels + ranks * s.subtreeLevels = s.maxRankRoot)
    (hresolve : ∀ m < 4 ^ (origin + s.subtreeLevels), ∀ nesting, depth ≤ nesting →
      Makes s top (resolve s nesting (.ofNat (origin + s.subtreeLevels) m))
        (Store.resolve s (buildRank s ranks) (.ofNat (origin + s.subtreeLevels) m)))
    (hle : origin ≤ level) (htop : top ≤ level) (h1 : 1 ≤ levels)
    (hlevels : level + levels = origin + s.subtreeLevels) (hi : index < 4 ^ level)
    (hnesting : levels + depth ≤ nesting) :
    Makes s top (inside s nesting (.ofNat level index) origin)
      (descend (Store.resolve s (buildRank s ranks)) levels (.ofNat level index)) := by
  have hmax := hs.max_lt
  have hlast := hs.maxRankRoot_add
  have hpos := hs.levels_pos
  induction levels generalizing level index nesting with
  | zero => exact absurd h1 (by decide)
  | succ levels ih =>
    -- One level further down one level less is left, in the same rank.
    obtain ⟨nesting, rfl⟩ := Nat.exists_eq_add_one.2 (show 0 < nesting by omega)
    have hn := within_ofNat hs htop (by omega) hi
    have hlevel : (Node.ofNat level index).level = level := rfl
    have hleft : s.subtreeLevels - (level - origin) = levels + 1 := by omega
    have hrange : level - origin < s.subtreeLevels ∧ 1 ≤ s.subtreeLevels - (level - origin) ∧
        s.subtreeLevels - (level - origin) ≤ s.subtreeLevels := by omega
    rw [inside]
    refine (Yields.enter ⟨hn, horigin, by omega, hle, hrange⟩).makes ?_
    refine (Yields.require (show origin ≤ level from hle)).makes ?_
    refine (Yields.require (show level - origin ≤ s.subtreeLevels by omega)).makes ?_
    simp only [hlevel, hleft]
    refine (yields_box (show level < 32 by omega)).makes ?_
    refine (yields_room hs (by omega)).makes ?_
    by_cases h0 : levels = 0
    · -- The quadrants are roots of the next rank.
      subst h0
      refine makes_gather hn (fun q hq => ?_) (gather_last _ _)
      refine (yields_childOf (by omega) hi hq).makes ?_
      rw [child_of_mem_quadrants (by omega) hi hq]
      have hroot : level + 1 = origin + s.subtreeLevels := hlevels
      have hm := Node.child_lt hi (toNat_lt_of_mem_quadrants hq)
      rw [hroot] at hm ⊢
      exact hresolve _ hm _ (by omega)
    · refine makes_gather hn (fun q hq => ?_) (gather_inside _ _ h0)
      refine (yields_childOf (by omega) hi hq).makes ?_
      rw [child_of_mem_quadrants (by omega) hi hq, if_pos (by omega)]
      exact ih (by omega) (by omega) (by omega) (by omega)
        (Node.child_lt hi (toNat_lt_of_mem_quadrants hq)) (by omega)

/-- A rank root is taken for one of the deepest rank by its level. -/
theorem makes_build_of (hs : s.Valid) (htop : top ≤ level) (hroot : RootLevel s level)
    (hi : index < 4 ^ level) {nesting : Nat} {b : Build Subtree}
    (h : Makes s top (if level = s.maxRankRoot then deepest s (.ofNat level index)
      else inside s nesting (.ofNat level index) level) b) :
    Makes s top (build s (nesting + 1) (.ofNat level index)) b := by
  have hle := hs.le_maxRankRoot hroot.1
  have hn := within_ofNat hs htop (Nat.le_trans hle hs.maxRankRoot_le_maxLevel) hi
  rw [build]
  refine (Yields.enter ⟨hn, hroot⟩).makes ?_
  exact (yields_mask (hs.level_lt hroot.1)).makes ((yields_lastRoot hs).makes h)

/-- **A rank root** is some whole ranks above the deepest, so the next rank is a rank of the schedule
and the way down meets the deepest. -/
theorem makes_build (hs : s.Valid) {ranks nesting : Nat} (htop : top ≤ level)
    (hmin : s.minLevel ≤ level) (hl : level + ranks * s.subtreeLevels = s.maxRankRoot)
    (hi : index < 4 ^ level) (hnesting : ranks * (s.subtreeLevels + 2) < nesting) :
    Makes s top (build s nesting (.ofNat level index))
      (buildRank s ranks (.ofNat level index)) := by
  have hlast := hs.maxRankRoot_add
  have hpos := hs.levels_pos
  induction ranks generalizing level index nesting with
  | zero =>
    obtain ⟨nesting, rfl⟩ := Nat.exists_eq_add_one.2 (Nat.zero_lt_of_lt hnesting)
    obtain rfl : level = s.maxRankRoot := by omega
    refine makes_build_of hs htop ⟨hs.isRankRoot_of_add hmin hl, _, hl⟩ hi ?_
    rw [if_pos rfl]
    exact makes_deepest hs htop hi
  | succ ranks ih =>
    obtain ⟨nesting, rfl⟩ := Nat.exists_eq_add_one.2 (Nat.zero_lt_of_lt hnesting)
    have hroot : RootLevel s level := ⟨hs.isRankRoot_of_add hmin hl, _, hl⟩
    rw [Nat.succ_mul] at hl hnesting
    have hnext : level + s.subtreeLevels + ranks * s.subtreeLevels = s.maxRankRoot := by omega
    refine makes_build_of hs htop hroot hi ?_
    rw [if_neg (by omega)]
    have hdepth : s.subtreeLevels + (ranks * (s.subtreeLevels + 2) + 2) ≤ nesting := by omega
    refine makes_inside hs hroot hnext ?_ (Nat.le_refl level) htop hpos rfl hi hdepth
    intro m hm nesting hle
    obtain ⟨nesting, rfl⟩ := Nat.exists_eq_add_one.2 (show 0 < nesting by omega)
    have hn := within_ofNat hs (show top ≤ level + s.subtreeLevels by omega) (by omega) hm
    have hnextRoot : RootLevel s (level + s.subtreeLevels) :=
      ⟨hs.isRankRoot_of_add (by omega) hnext, _, hnext⟩
    have hbuild := ih (by omega) (by omega) hnext hm (show _ < nesting by omega)
    rw [resolve]
    refine (Yields.enter ⟨hn, hnextRoot⟩).makes ?_
    exact ⟨hbuild.yields.bind_left (.pure rfl), stays_resolve s hn hbuild.stays⟩

/-! ### Requests -/

theorem isRankRoot_iff_and : s.isRankRoot level = true ↔
    s.minLevel ≤ level ∧ level ≤ s.maxRankRoot ∧ level % s.subtreeLevels = 0 := by
  unfold Schedule.isRankRoot
  rw [Bool.and_eq_true, Bool.and_eq_true, decide_eq_true_iff, decide_eq_true_iff, beq_iff_eq,
    and_assoc]

theorem inLevel_iff_lt_shift {t : Tile} (hl : t.level < 64) : inLevel t = true ↔
    t.x.toUInt64 < 1 <<< t.level.toUInt64 ∧ t.y.toUInt64 < 1 <<< t.level.toUInt64 := by
  have hside : ((1 : UInt64) <<< t.level.toUInt64).toNat = 2 ^ t.level := Word.toNat_single hl
  rw [inLevel_eq_true_iff, UInt64.lt_iff_toNat_lt, UInt64.lt_iff_toNat_lt, hside,
    UInt32.toNat_toUInt64, UInt32.toNat_toUInt64]

/-- **The recursion stays in range and ends.** For a valid schedule and a rank root within its level,
no arithmetic leaves its range, and calls nest `subtreeLevels + 2` deep for each rank that follows,
and one for the deepest. What comes out is the routine of the store. Every call made for it is in
range, the way down meets the deepest rank, and whatever the oracle and the cache answer, the store
asks them about nothing but tiles in range. -/
theorem request_in_range (hs : s.Valid) {t : Tile} (hroot : s.isRankRoot t.level = true)
    (hx : t.x.toNat < 2 ^ t.level) (hy : t.y.toNat < 2 ^ t.level) {nesting : Nat}
    (hnesting : s.ranksBelow t.level * (s.subtreeLevels + 2) < nesting) :
    s.maxLevel ≤ 31 ∧ (∃ calls, (request s nesting t).run [] = some (get s t, calls) ∧
      (∀ c ∈ calls, InRange s t.level c) ∧ ∃ n, .deepest n ∈ calls) ∧
    Stays (Within s t.level) (get s t) := by
  have hpos := hs.levels_pos
  have hlt := hs.level_lt hroot
  have hin : inLevel t = true := inLevel_eq_true_iff.2 ⟨hx, hy⟩
  obtain ⟨hmin, hranks⟩ := hs.isRankRoot_iff.1 hroot
  have hbuild := makes_build hs (Nat.le_refl t.level) hmin hranks t.morton_lt hnesting
  rw [← t.node_eq_ofNat] at hbuild
  have hrequest : Yields (InRange s t.level) True (request s nesting t) (get s t) := by
    refine (yields_lastRoot hs).bind ?_
    refine (Yields.require (show s.subtreeLevels ≠ 0 by omega)).bind ?_
    rw [if_pos (isRankRoot_iff_and.1 hroot)]
    refine (Yields.require (show t.level < 64 by omega)).bind ?_
    rw [if_pos ((inLevel_iff_lt_shift (by omega)).1 hin), get_eq_withLock hroot hin]
    refine (yields_mask hlt).bind ?_
    exact hbuild.yields.bind_left (.pure rfl)
  obtain ⟨calls, hrun, hcalls, hdeepest⟩ := hrequest []
  rw [List.append_nil] at hrun
  have hmax := hs.maxRankRoot_le_maxLevel
  have hn : Within s t.level t.node :=
    ⟨Nat.le_refl _, Nat.le_trans (hs.le_maxRankRoot hroot) hmax, t.morton_lt⟩
  exact ⟨Nat.le_of_lt_succ hs.max_lt, ⟨calls, hrun, hcalls, hdeepest trivial⟩,
    stays_get hn hbuild.stays⟩

/-- Two ranks of two levels each. Calls nest five deep. -/
theorem request_in_range_two_ranks :
    (∃ calls, (request ⟨0, 3, 2, false⟩ 5 ⟨0, 0, 0⟩).run [] =
        some (get ⟨0, 3, 2, false⟩ ⟨0, 0, 0⟩, calls) ∧
      (∀ c ∈ calls, InRange ⟨0, 3, 2, false⟩ 0 c) ∧ ∃ n, .deepest n ∈ calls) ∧
    Stays (Within ⟨0, 3, 2, false⟩ 0) (get ⟨0, 3, 2, false⟩ ⟨0, 0, 0⟩) :=
  (request_in_range (s := ⟨0, 3, 2, false⟩) (t := ⟨0, 0, 0⟩)
    ((Schedule.validate_eq_ok_iff _).1 rfl) rfl Nat.one_pos Nat.one_pos (by decide)).2

end

end ImplicitTiling.Store.Checked
