import ImplicitTiling.Proofs.Store.Contract
import ImplicitTiling.Proofs.Store.Occupied
import ImplicitTiling.Proofs.Subtree.RoundTrip

/-!
# Building under a contract

The store counts on an oracle that answers one function of the tile, and it only ever saves the bytes
of subtrees that are right (`contractOver`). Of what the cache holds below the rank root asked for it
takes no more than it decodes to, and of that no more than the root (`Reads`); so every routine of
the store builds what `IsBuilt` says, whatever mixture of cached and missing ranks it comes across:
`meets_buildRank`, and for a whole request `meets_get_over`.

A cache that was only ever written by such a store holds the bytes of right subtrees and no others
(`contract`), and that is more than enough: `meets_get`.
-/

namespace ImplicitTiling.Store

/-- The bytes are those of the subtree of a rank root. -/
def IsBlob (s : Schedule) (E : Node → Bool) (n : Node) (blob : ByteArray) : Prop :=
  ∃ level index t, n = .ofNat level index ∧ index < 4 ^ level ∧ s.isRankRoot level = true ∧
    IsBuilt s E level index s.subtreeLevels t ∧ blob = t.encode

/-- Bytes that decode in the rank of a rank root decode to a subtree with the right root. -/
def Reads (s : Schedule) (E : Node → Bool) (level index : Nat) (blob : ByteArray) : Prop :=
  ∀ sub, Subtree.decode blob s.subtreeLevels = .ok sub → HasRoot s E level index sub

/-- The oracle answers `E` of a tile, the cache holds bytes that are good, and the store saves bytes
of the right subtrees only. Where failures are allowed, every request may fail. -/
def contractOver (s : Schedule) (E : Node → Bool) (good : Node → ByteArray → Prop) (fails : Prop) :
    Contract where
  asks
    | .save n blob => IsBlob s E n blob
    | _ => True
  answers
    | .query n => Outcome fails fun found => found = E n
    | .fetch n => Outcome fails fun found => ∀ blob ∈ found, good n blob
    | .save _ _ => Outcome fails fun _ => True
    | .lock _ => fun _ => True
    | .unlock _ => fun _ => True
    | .note _ => fun _ => True

/-- The contract with a cache that holds bytes of the right subtrees only. -/
def contract (s : Schedule) (E : Node → Bool) (fails : Prop) : Contract :=
  contractOver s E (IsBlob s E) fails

variable {s : Schedule} {E : Node → Bool} {good : Node → ByteArray → Prop} {fails : Prop}

section

open Build

theorem meets_query (n : Node) :
    Meets (contractOver s E good fails) fails (fun found => found = E n) (query n) :=
  Meets.ask (.query n) trivial fun _ h => h

theorem meets_fetch (n : Node) : Meets (contractOver s E good fails) fails
    (fun found => ∀ blob ∈ found, good n blob) (fetch n) :=
  Meets.ask (.fetch n) trivial fun _ h => h

theorem meets_save {n : Node} {blob : ByteArray} (h : IsBlob s E n blob) :
    Meets (contractOver s E good fails) fails (fun _ => True) (save n blob) :=
  Meets.ask (.save n blob) h fun _ h => h

theorem meets_note (r : Record) :
    Meets (contractOver s E good fails) fails (fun _ => True) (note r) :=
  Meets.ask (.note r) trivial fun _ _ => trivial

/-! ## The deepest rank -/

/-- Of `n` leaves those below `i` that satisfy `f` are set, and no others. -/
structure Scanned (f : Nat → Bool) (n i : Nat) (leaves : Bitset) : Prop where
  size_eq : leaves.size = n
  get_eq : ∀ k, leaves.get k = (decide (k < i) && f k)

theorem Scanned.empty (f : Nat → Bool) (n : Nat) : Scanned f n 0 (Bitset.empty n) :=
  ⟨Bitset.size_empty n, fun k => by rw [Bitset.get_empty, decide_eq_false (Nat.not_lt_zero k)]; rfl⟩

theorem Scanned.step {f : Nat → Bool} {n i : Nat} {leaves : Bitset} (h : Scanned f n i leaves)
    (hi : i < n) : Scanned f n (i + 1) (if f i = true then leaves.set i true else leaves) := by
  have hnext (k : Nat) (hk : k ≠ i) : decide (k < i + 1) = decide (k < i) :=
    decide_eq_decide.2 (by omega)
  split
  · next hfound =>
    refine ⟨by rw [Bitset.size_set, h.size_eq], ?_⟩
    intro k
    rw [Bitset.get_set, h.get_eq k]
    by_cases hk : k = i
    · subst hk
      rw [if_pos ⟨rfl, h.size_eq.symm ▸ hi⟩, hfound, Bool.and_true,
        decide_eq_true (Nat.lt_succ_self k)]
    · rw [if_neg fun h => hk h.1, hnext k hk]
  · next hfound =>
    refine ⟨h.size_eq, ?_⟩
    intro k
    rw [h.get_eq k]
    by_cases hk : k = i
    · subst hk
      rw [Bool.eq_false_of_not_eq_true hfound, Bool.and_false, Bool.and_false]
    · rw [hnext k hk]

theorem meets_scanLeaves {level index depth : Nat} (hl : level + depth < 32)
    (hi : index < 4 ^ level) :
    Meets (contractOver s E good fails) fails
      (Scanned (fun k => E (.ofNat (level + depth) (4 ^ depth * index + k))) (4 ^ depth)
        (4 ^ depth))
      (scanLeaves (.ofNat level index) depth) := by
  refine Meets.foldlM_range (Scanned _ (4 ^ depth)) _ ?_ (Scanned.empty _ _)
  intro i hlt leaves h
  rw [Node.descendant_ofNat hl hi hlt]
  refine (meets_query _).bind fun found hfound => ?_
  subst hfound
  exact .pure (h.step hlt)

/-- The deepest rank is built from its leaves. -/
theorem meets_buildDeepest (hs : s.Valid) {index : Nat} (hindex : index < 4 ^ s.maxRankRoot) :
    Meets (contractOver s E good fails) fails (IsBuilt s E s.maxRankRoot index s.subtreeLevels)
      (buildDeepest s (.ofNat s.maxRankRoot index)) := by
  have hroot := hs.maxRankRoot_add
  have hpos := hs.levels_pos
  have hlast := hs.maxRankRoot_add_pred
  refine (meets_query _).bind fun found hfound => ?_
  cases found with
  | false =>
    refine (meets_note _).bind fun _ _ => .pure ?_
    exact isBuilt_empty (Nat.le_refl _) (Nat.le_of_eq hroot)
      (fun h => absurd h (Nat.lt_irrefl _)) hfound.symm
  | true =>
    have hmax := hs.max_lt
    refine (meets_scanLeaves (by omega) hindex).bind fun leaves hleaves => ?_
    rw [hlast] at hleaves
    obtain ⟨tiles, t, htiles, hcontent, ht, hbuilt⟩ :=
      exists_isBuilt_deepest hs hindex hfound.symm hleaves.size_eq fun k hk => by
        rw [hleaves.get_eq k, decide_eq_true hk, Bool.true_and]
    refine (Meets.check htiles rfl).bind fun tiles' htiles' => ?_
    refine (Meets.check hcontent rfl).bind fun content' hcontent' => ?_
    subst htiles'
    subst hcontent'
    exact Meets.check ht hbuilt

/-! ## Through the cache -/

/-- Bytes of a rank root are those of the subtree at that very level and index. -/
theorem IsBlob.exists_isBuilt {level index : Nat} {blob : ByteArray} (hl : level ≤ 32)
    (hi : index < 4 ^ level) (h : IsBlob s E (.ofNat level index) blob) :
    ∃ t, IsBuilt s E level index s.subtreeLevels t ∧ blob = t.encode := by
  obtain ⟨level', index', t, hn, hi', -, ht, rfl⟩ := h
  obtain ⟨rfl, rfl⟩ := Node.ofNat_inj hl hi hi' hn
  exact ⟨t, ht, rfl⟩

/-- What is built is encoded, and its bytes may be saved. -/
theorem meets_buildAndSave {build : Node → Build Subtree} {level index : Nat}
    (hi : index < 4 ^ level) (hroot : s.isRankRoot level = true)
    (hbuild : Meets (contractOver s E good fails) fails (IsBuilt s E level index s.subtreeLevels)
      (build (.ofNat level index))) :
    Meets (contractOver s E good fails) fails
      (fun result => IsBuilt s E level index s.subtreeLevels result.1 ∧
        result.2 = result.1.encode)
      (buildAndSave build (.ofNat level index)) := by
  refine hbuild.bind fun t ht => ?_
  refine (meets_save ⟨level, index, t, rfl, hi, hroot, ht, rfl⟩).bind fun _ _ => ?_
  exact (meets_note _).bind fun _ _ => .pure ⟨ht, rfl⟩

theorem IsBuilt.decode_eq_ok (hs : s.Valid) {level index : Nat} {t : Subtree}
    (h : IsBuilt s E level index s.subtreeLevels t) :
    Subtree.decode t.encode s.subtreeLevels = .ok t :=
  Subtree.decode_of_encode h.levels_eq hs.levels_pos hs.levels_le

theorem IsBlob.reads (hs : s.Valid) {level index : Nat} {blob : ByteArray} (hl : level ≤ 32)
    (hi : index < 4 ^ level) (h : IsBlob s E (.ofNat level index) blob) :
    Reads s E level index blob := by
  obtain ⟨t, ht, rfl⟩ := h.exists_isBuilt hl hi
  intro sub hsub
  cases (ht.decode_eq_ok hs).symm.trans hsub
  exact ht.hasRoot hs

/-- The cached bytes of a rank root are good only if they read well, unless the schedule asks to
build anew. -/
def ReadsGood (s : Schedule) (E : Node → Bool) (good : Node → ByteArray → Prop)
    (level index : Nat) : Prop :=
  s.reload = false → ∀ blob, good (.ofNat level index) blob → Reads s E level index blob

theorem meets_fetchDecoded {level index : Nat} (hgood : ReadsGood s E good level index) :
    Meets (contractOver s E good fails) fails (fun found => ∀ t ∈ found, HasRoot s E level index t)
      (fetchDecoded s (.ofNat level index)) := by
  unfold fetchDecoded
  split
  · exact .pure fun _ h => nomatch h
  next hreload =>
  refine (meets_fetch _).bind fun found hfound => ?_
  cases found with
  | none => exact .pure fun _ h => nomatch h
  | some blob =>
    have hreads := hgood (Bool.eq_false_of_not_eq_true hreload) blob (hfound blob rfl)
    dsimp only
    split
    · next sub hsub => exact .pure fun _ h => Option.mem_some.1 h ▸ hreads sub hsub
    · exact (meets_note _).bind fun _ _ => .pure fun _ h => nomatch h

theorem meets_resolve (hs : s.Valid) {build : Node → Build Subtree} {level index : Nat}
    (hi : index < 4 ^ level) (hroot : s.isRankRoot level = true)
    (hgood : ReadsGood s E good level index)
    (hbuild : Meets (contractOver s E good fails) fails (IsBuilt s E level index s.subtreeLevels)
      (build (.ofNat level index))) :
    Meets (contractOver s E good fails) fails (HasRoot s E level index)
      (resolve s build (.ofNat level index)) := by
  refine Meets.withLock trivial trivial ((meets_fetchDecoded hgood).bind fun found hfound => ?_)
  cases found with
  | some t => exact .pure (hfound t rfl)
  | none =>
    exact (meets_buildAndSave hi hroot hbuild).bind fun result h => .pure (h.1.hasRoot hs)

/-! ## The ranks above -/

section

variable {resolve : Node → Build Subtree} {level index : Nat}

/-- The last level of a rank is told by the roots of the next rank. -/
theorem meets_descend_last (hs : s.Valid) (hl : level + 1 ≤ s.maxRankRoot)
    (hi : index < 4 ^ level)
    (hresolve : ∀ q < 4, Meets (contractOver s E good fails) fails
      (HasRoot s E (level + 1) (4 * index + q)) (resolve (.ofNat (level + 1) (4 * index + q))))
    (hE : E (.ofNat level index) = true) :
    Meets (contractOver s E good fails) fails (IsBuilt s E level index 1) (do
      let parts ← quadrants.mapM fun q => do
        check (← resolve ((Node.ofNat level index).child q)).summary
      let joined ← check (Subtree.concatenate parts)
      check joined.summary) := by
  have hmax := hs.max_lt
  have hlast := hs.maxRankRoot_le_maxLevel
  refine (Meets.mapM_quadrants (fun q r => ∃ sub,
    HasRoot s E (level + 1) (4 * index + q) sub ∧ Subtree.IsSummary sub r)
    ?_).bind fun parts ⟨h4, hparts⟩ => ?_
  · intro q hq
    rw [Node.child_ofNat (by omega) hi hq]
    refine (hresolve q hq).bind fun sub hsub => ?_
    obtain ⟨r, hr, hsummary⟩ := sub.exists_isSummary (hsub.levels_eq ▸ hs.levels_pos)
    exact Meets.check hr ⟨sub, hsub, hsummary⟩
  have hone : ∀ r ∈ parts, r.levels = 1 := by
    intro r hr
    obtain ⟨q, hq, rfl⟩ := List.getElem_of_mem hr
    obtain ⟨sub, -, hsummary⟩ := hparts q hq
    exact hsummary.levels_eq
  obtain ⟨joined, hjoined, hjoin⟩ := Subtree.exists_isJoin h4 hone (Nat.le_refl 1)
  obtain ⟨t, ht, hsummary⟩ := joined.exists_isSummary (by rw [hjoin.levels_eq]; decide)
  refine (Meets.check hjoined rfl).bind fun joined' hjoined' => ?_
  subst hjoined'
  exact Meets.check ht (IsBuilt.summarize hjoin hsummary h4 hl (by omega) hE
    fun q hq => hparts q (h4.symm ▸ hq))

/-- Inside a rank a node is told by its four quadrants. -/
theorem meets_descend_inside (hs : s.Valid) {levels : Nat} (h1 : 1 ≤ levels)
    (hl : level + 1 + levels ≤ s.maxRankRoot) (hi : index < 4 ^ level)
    (hquadrant : ∀ q < 4, Meets (contractOver s E good fails) fails
      (IsBuilt s E (level + 1) (4 * index + q) levels)
      (descend resolve levels (.ofNat (level + 1) (4 * index + q))))
    (hE : E (.ofNat level index) = true) :
    Meets (contractOver s E good fails) fails (IsBuilt s E level index (levels + 1)) (do
      let parts ← quadrants.mapM fun q =>
        descend resolve levels ((Node.ofNat level index).child q)
      check (Subtree.concatenate parts)) := by
  have hmax := hs.max_lt
  have hlast := hs.maxRankRoot_le_maxLevel
  refine (Meets.mapM_quadrants (fun q part =>
    IsBuilt s E (level + 1) (4 * index + q) levels part) ?_).bind fun parts ⟨h4, hparts⟩ => ?_
  · intro q hq
    rw [Node.child_ofNat (by omega) hi hq]
    exact hquadrant q hq
  have hlevels : ∀ part ∈ parts, part.levels = levels := by
    intro part hpart
    obtain ⟨q, hq, rfl⟩ := List.getElem_of_mem hpart
    exact (hparts q hq).levels_eq
  obtain ⟨t, ht, hjoin⟩ := Subtree.exists_isJoin h4 hlevels h1
  exact Meets.check ht (IsBuilt.join hjoin h4 h1 (by omega) (by omega) hE
    fun q hq => hparts q (h4.symm ▸ hq))

end

/-- Going down a rank finds its subtree, provided the roots of the next rank are resolved. -/
theorem meets_descend (hs : s.Valid) {resolve : Node → Build Subtree} {levels level index : Nat}
    (h1 : 1 ≤ levels) (hroot : level + levels ≤ s.maxRankRoot) (hi : index < 4 ^ level)
    (hresolve : ∀ m < 4 ^ (level + levels), m / 4 ^ levels = index →
      Meets (contractOver s E good fails) fails (HasRoot s E (level + levels) m)
        (resolve (.ofNat (level + levels) m))) :
    Meets (contractOver s E good fails) fails (IsBuilt s E level index levels)
      (descend resolve levels (.ofNat level index)) := by
  have hlast := hs.maxRankRoot_le_maxLevel
  induction levels generalizing level index with
  | zero => exact absurd h1 (by decide)
  | succ levels ih =>
    refine (meets_query _).bind fun found hfound => ?_
    cases found with
    | false =>
      refine (meets_note _).bind fun _ _ => .pure ?_
      exact isBuilt_empty (by omega) (by omega) (fun _ => by omega) hfound.symm
    | true =>
      by_cases h0 : levels = 0
      · subst h0
        refine meets_descend_last hs hroot hi (fun q hq => ?_) hfound.symm
        exact hresolve _ (Node.child_lt hi hq) (by omega)
      · simp only [if_neg h0, if_true]
        refine meets_descend_inside hs (by omega) (by omega) hi (fun q hq => ?_) hfound.symm
        refine ih (by omega) (by omega) (Node.child_lt hi hq) fun m hm hquadrant => ?_
        have hlevel : level + 1 + levels = level + (levels + 1) := by omega
        rw [hlevel] at hm ⊢
        refine hresolve m hm ?_
        rw [Nat.pow_succ, ← Nat.div_div_eq_div_mul, hquadrant]
        omega

/-- What is good of the cached bytes below a rank root reads well. -/
def GoodBelow (s : Schedule) (E : Node → Bool) (good : Node → ByteArray → Prop)
    (level index : Nat) : Prop :=
  ∀ level' index', level < level' → s.isRankRoot level' = true → index' < 4 ^ level' →
    index' / 4 ^ (level' - level) = index → ReadsGood s E good level' index'

theorem goodBelow_isBlob (hs : s.Valid) (level index : Nat) :
    GoodBelow s E (IsBlob s E) level index :=
  fun _ _ _ hroot hi _ _ _ h => h.reads hs (hs.level_lt hroot).le hi

theorem GoodBelow.next {level depth index m : Nat} (h : GoodBelow s E good level index)
    (hm : m / 4 ^ depth = index) : GoodBelow s E good (level + depth) m := by
  intro level' index' hlt hroot hi hbelow
  refine h level' index' (by omega) hroot hi ?_
  have hlevels : level' - level = level' - (level + depth) + depth := by omega
  rw [hlevels, Nat.pow_add, ← Nat.div_div_eq_div_mul, hbelow, hm]

/-- **Every rank is built as it should be,** whatever is cached of the ranks below, as long as it
reads well. -/
theorem meets_buildRank (hs : s.Valid) {ranks level index : Nat} (hmin : s.minLevel ≤ level)
    (hl : level + ranks * s.subtreeLevels = s.maxRankRoot) (hi : index < 4 ^ level)
    (hgood : GoodBelow s E good level index) :
    Meets (contractOver s E good fails) fails (IsBuilt s E level index s.subtreeLevels)
      (buildRank s ranks (.ofNat level index)) := by
  induction ranks generalizing level index with
  | zero =>
    obtain rfl : level = s.maxRankRoot := by omega
    exact meets_buildDeepest hs hi
  | succ ranks ih =>
    have hpos := hs.levels_pos
    rw [Nat.succ_mul] at hl
    have hnext : level + s.subtreeLevels + ranks * s.subtreeLevels = s.maxRankRoot := by omega
    have hroot := hs.isRankRoot_of_add (by omega) hnext
    refine meets_descend hs hpos (by omega) hi fun m hm hbelow => ?_
    refine meets_resolve hs hm hroot ?_ (ih (by omega) hnext hm (hgood.next hbelow))
    exact hgood _ m (by omega) hroot hm (by rwa [Nat.add_sub_cancel_left])

/-! ## Requests -/

/-- The bytes are those of the subtree of a tile, which is a rank root. -/
def IsAnswer (s : Schedule) (E : Node → Bool) (t : Tile) (bytes : ByteArray) : Prop :=
  s.isRankRoot t.level = true ∧ inLevel t = true ∧
    ∃ sub, IsBuilt s E t.level t.morton.toNat s.subtreeLevels sub ∧ bytes = sub.encode

theorem IsAnswer.unique (hs : s.Valid) {t : Tile} {bytes bytes' : ByteArray}
    (h : IsAnswer s E t bytes) (h' : IsAnswer s E t bytes') : bytes = bytes' := by
  obtain ⟨hroot, -, sub, hsub, rfl⟩ := h
  obtain ⟨-, -, sub', hsub', rfl⟩ := h'
  rw [hsub.unique (hs.le_maxRankRoot hroot) hsub']

/-- The cache holds under a rank root the bytes that its tile is answered with. -/
theorem IsBlob.isAnswer (hs : s.Valid) {n : Node} {blob : ByteArray} (h : IsBlob s E n blob) :
    s.isRankRoot n.level = true ∧ n.index.toNat < 4 ^ n.level ∧ IsAnswer s E n.tile blob := by
  obtain ⟨level, index, sub, rfl, hi, hroot, hsub, rfl⟩ := h
  have hlt := Node.index_ofNat_lt (hs.level_lt hroot).le hi
  refine ⟨hroot, hlt, hroot, Node.inLevel_tile _, sub, ?_, rfl⟩
  rw [Node.toNat_morton_tile (hs.level_lt hroot).le hi]
  exact hsub

theorem IsBlob.size_lt (hs : s.Valid) {n : Node} {blob : ByteArray} (h : IsBlob s E n blob) :
    blob.size < 2 ^ 32 := by
  obtain ⟨level, index, sub, -, -, -, hsub, rfl⟩ := h
  exact sub.size_encode_lt (hsub.levels_eq ▸ hs.levels_le)

theorem meets_fetchBytes (n : Node) : Meets (contractOver s E good fails) fails
    (fun found => ∀ blob ∈ found, s.reload = false ∧ good n blob) (fetchBytes s n) := by
  unfold fetchBytes
  split
  · exact .pure fun _ h => nomatch h
  next hreload =>
  exact (meets_fetch n).mono fun found hfound blob hblob =>
    ⟨Bool.eq_false_of_not_eq_true hreload, hfound blob hblob⟩

/-- **A request is answered with the bytes of its subtree,** provided the cached bytes of the tile
itself are right and those below it read well. It fails only if the tile has no subtree or if
failures are allowed. -/
theorem meets_get_over (hs : s.Valid) {t : Tile}
    (hfails : ¬ (s.isRankRoot t.level = true ∧ inLevel t = true) → fails)
    (hown : s.reload = false → ∀ blob, good t.node blob → IsBlob s E t.node blob)
    (hbelow : GoodBelow s E good t.level t.morton.toNat) :
    Meets (contractOver s E good fails) fails (IsAnswer s E t) (get s t) := by
  rcases get_cases s t with ⟨hrefused, e, hget⟩ | ⟨hroot, hin⟩
  · rw [hget]
    exact .throw (hfails hrefused) e
  · obtain ⟨hmin, hranks⟩ := hs.isRankRoot_iff.1 hroot
    have hi := t.morton_lt
    rw [get_eq_withLock hroot hin]
    rw [t.node_eq_ofNat] at hown ⊢
    refine Meets.withLock trivial trivial ((meets_fetchBytes _).bind fun found hfound => ?_)
    cases found with
    | some blob =>
      obtain ⟨hreload, hgood⟩ := hfound blob rfl
      obtain ⟨sub, hsub, heq⟩ := (hown hreload blob hgood).exists_isBuilt (hs.level_lt hroot).le hi
      exact (meets_note _).bind fun _ _ => .pure ⟨hroot, hin, sub, hsub, heq⟩
    | none =>
      refine (meets_buildAndSave hi hroot (meets_buildRank hs hmin hranks hi hbelow)).bind ?_
      rintro ⟨sub, bytes⟩ ⟨hsub, heq⟩
      exact .pure ⟨hroot, hin, sub, hsub, heq⟩

/-- **A request is answered with the bytes of its subtree.** It fails only if the tile has none or
if failures are allowed. -/
theorem meets_get (hs : s.Valid) {t : Tile}
    (hfails : ¬ (s.isRankRoot t.level = true ∧ inLevel t = true) → fails) :
    Meets (contract s E fails) fails
      (IsAnswer s E t) (get s t) :=
  meets_get_over hs hfails (fun _ _ h => h) (goodBelow_isBlob hs _ _)

end

end ImplicitTiling.Store
