import ImplicitTiling.Proofs.Store.Alone
import ImplicitTiling.Proofs.Store.Visits
import ImplicitTiling.Proofs.Subtree.Untrusted

/-!
# What a request asks for

Alone, and over a cache that drops nothing, a request for a rank root that is not cached asks for
the tiles of the traversal and saves the rank roots that the traversal builds (`does_get`). The
ranks, the locks and the bytes in between do not show: one lemma for each routine of the store,
where what a quadrant saves does not matter to the other quadrants (`does_quadrants`). So
`get_visits` gives the queries of a request one by one.
-/

namespace ImplicitTiling.Store

variable {s : Schedule} {E : Node → Bool} {skips : Node → Bool} {level index : Nat} {n : Node}

/-! ## Which rank roots are served -/

/-- At the rank roots at or below a node, `skips` says which the cache serves. -/
def Agrees (s : Schedule) (skips : Node → Bool) (level index : Nat) (blobs : Blobs) : Prop :=
  ∀ n, AtOrBelow level index n → s.isRankRoot n.level = true → served s blobs n = skips n

theorem Agrees.saves {before after : Blobs} {nodes : List Node}
    (h : Agrees s skips level index before) (hsaves : Saves s before after nodes)
    (hapart : ∀ n ∈ nodes, ¬ AtOrBelow level index n) : Agrees s skips level index after := by
  intro n hn hroot
  rw [served_congr (hsaves.kept n fun hmem => hapart n hmem hn)]
  exact h n hn hroot

theorem Agrees.below {blobs : Blobs} {level' index' : Nat} (h : Agrees s skips level index blobs)
    (hl : level ≤ level') (hi : index' / 4 ^ (level' - level) = index) :
    Agrees s skips level' index' blobs :=
  fun n hn => h n (hn.above hl hi)

/-! ## The routines of the store -/

open Build

variable {before : Blobs}

theorem does_scanLeaves (n : Node) (depth : Nat) :
    Does E before ((List.range (4 ^ depth)).map (n.descendant depth))
      (fun leaves after => leaves.size = 4 ^ depth ∧ after = before) (scanLeaves n depth) := by
  refine Does.foldlM (fun leaves : Bitset => leaves.size = 4 ^ depth) ?_ (Bitset.size_empty _)
  intro i leaves hsize
  refine (does_query _).bind_quiet ?_
  rintro found _ ⟨-, rfl⟩
  refine .pure ⟨?_, rfl⟩
  split
  · rw [Bitset.size_set, hsize]
  · exact hsize

theorem does_buildDeepest (hs : s.Valid) (n : Node) :
    Does E before (visitFrom s E skips 0 n)
      (fun t after => t.levels = s.subtreeLevels ∧ Saves s before after []) (buildDeepest s n) := by
  refine (does_query n).bind ?_
  rintro _ _ ⟨rfl, rfl⟩
  cases E n with
  | false =>
    refine (does_note _).bind ?_
    rintro _ _ rfl
    exact .pure ⟨rfl, .refl _⟩
  | true =>
    refine (does_scanLeaves n _).bind_quiet ?_
    rintro leaves _ ⟨hsize, rfl⟩
    obtain ⟨tiles, t, htiles, hcontent, ht, hlevels, -⟩ := exists_ofLeaves hs hsize
    refine (Does.check_eq htiles).bind ?_
    rintro _ _ ⟨rfl, rfl⟩
    refine (Does.check_eq hcontent).bind ?_
    rintro _ _ ⟨rfl, rfl⟩
    exact .check ht ⟨hlevels, .refl _⟩

theorem does_buildAndSave (hs : s.Valid) {build : Node → Build Subtree} {queries saved : List Node}
    (hbuild : Does E before queries
      (fun t after => t.levels = s.subtreeLevels ∧ Saves s before after saved) (build n)) :
    Does E before queries (fun result after => result.1.levels = s.subtreeLevels ∧
      after n = some result.2 ∧ Saves s before after (saved ++ [n])) (buildAndSave build n) := by
  refine hbuild.bind_quiet ?_
  rintro t middle ⟨hlevels, hsaves⟩
  refine (does_save n _).bind ?_
  rintro _ _ rfl
  refine (does_note _).bind ?_
  rintro _ _ rfl
  have hdecode := Subtree.decode_of_encode hlevels hs.levels_pos hs.levels_le
  exact .pure ⟨hlevels, Function.update_self .., hsaves.trans (.update hdecode)⟩

theorem does_fetchDecoded (hs : s.Valid) (hreload : s.reload = false) (n : Node) :
    Does E before [] (fun found after => after = before ∧ found.isSome = served s before n ∧
      ∀ t ∈ found, t.levels = s.subtreeLevels) (fetchDecoded s n) := by
  unfold fetchDecoded
  rw [if_neg (by simp [hreload])]
  refine (does_fetch n).bind ?_
  rintro _ blobs ⟨rfl, rfl⟩
  cases hblob : blobs n with
  | none => exact .pure ⟨rfl, (not_served_of_none hblob).symm, fun _ h => nomatch h⟩
  | some blob =>
    rcases Subtree.decode_format_or_ok blob hs.levels_pos hs.levels_le with
      ⟨cause, he⟩ | ⟨t, ht, hl⟩
    · simp only [he]
      refine (does_note _).bind ?_
      rintro _ _ rfl
      exact .pure ⟨rfl, (not_served_of_decode hblob he).symm, fun _ h => nomatch h⟩
    · simp only [ht]
      exact .pure ⟨rfl, (served_of_decode hblob ht).symm, fun t' h => Option.some.inj h ▸ hl⟩

/-- What a routine does that gives the subtree of a node: it asks for the tiles in `queries`, and it
saves the rank roots in `saved`. -/
abbrev Finds (s : Schedule) (E : Node → Bool) (before : Blobs) (queries saved : List Node)
    (levels : Nat) (b : Build Subtree) : Prop :=
  Does E before queries (fun t after => t.levels = levels ∧ Saves s before after saved) b

/-- The routine asks for the tiles of the traversal from a node on, and saves its rank roots. -/
def FindsFrom (s : Schedule) (E skips : Node → Bool) (depth levels level index : Nat)
    (f : Node → Build Subtree) : Prop :=
  ∀ before, Agrees s skips level index before →
    Finds s E before (visitFrom s E skips depth (.ofNat level index))
      (rebuiltFrom s E skips depth (.ofNat level index)) levels (f (.ofNat level index))

/-- The routine asks for the tiles of the traversal in a quadrant, and saves its rank roots. -/
def FindsNext (s : Schedule) (E skips : Node → Bool) (depth levels level index : Nat)
    (f : Node → Build Subtree) : Prop :=
  ∀ before, Agrees s skips level index before →
    Finds s E before (visitNext s skips (visitFrom s E skips depth) (.ofNat level index))
      (rebuiltNext s skips (rebuiltFrom s E skips depth) (.ofNat level index)) levels
      (f (.ofNat level index))

section

variable {resolve build : Node → Build Subtree} {levels depth : Nat}

theorem FindsFrom.next (h : FindsFrom s E skips depth levels level index build)
    (hinside : s.isRankRoot level = false) :
    FindsNext s E skips depth levels level index build := by
  intro before hagrees
  have hnotRoot : s.isRankRoot (Node.ofNat level index).level = false := hinside
  unfold visitNext rebuiltNext
  rw [hnotRoot]
  exact h before hagrees

theorem does_resolve (hs : s.Valid) (hreload : s.reload = false) (hl : level ≤ 32)
    (hi : index < 4 ^ level) (hroot : s.isRankRoot level = true)
    (hbuild : FindsFrom s E skips depth s.subtreeLevels level index build) :
    FindsNext s E skips depth s.subtreeLevels level index (Store.resolve s build) := by
  intro before hagrees
  have hroot' : s.isRankRoot (Node.ofNat level index).level = true := hroot
  unfold visitNext rebuiltNext
  rw [hroot', ← hagrees _ (atOrBelow_self hl hi) hroot']
  refine Does.withLock ((does_fetchDecoded hs hreload _).bind ?_)
  rintro found before ⟨rfl, hfound, hlevels⟩
  cases found with
  | some t =>
    rw [← hfound]
    exact .pure ⟨hlevels t rfl, .refl _⟩
  | none =>
    rw [← hfound]
    refine (does_buildAndSave hs (hbuild before hagrees)).bind_quiet ?_
    rintro result after ⟨hlevels, -, hsaves⟩
    exact .pure ⟨hlevels, hsaves⟩

/-- One routine for each quadrant of a node: what one saves stands in its quadrant, so none touches
what another one finds. -/
theorem does_quadrants {α : Type} {f : Node → Build α} {visit : Node → List Node}
    (rebuilt : Node → List Node) (post : α → Prop) (hl : level < 32) (hi : index < 4 ^ level)
    (hbelow : ∀ m < 4 ^ (level + 1), ∀ n ∈ rebuilt (.ofNat (level + 1) m),
      AtOrBelow (level + 1) m n)
    (hf : ∀ m < 4 ^ (level + 1), m / 4 = index → ∀ before, Agrees s skips (level + 1) m before →
      Does E before (visit (.ofNat (level + 1) m))
        (fun a after => post a ∧ Saves s before after (rebuilt (.ofNat (level + 1) m)))
        (f (.ofNat (level + 1) m)))
    (hagrees : Agrees s skips level index before) :
    Does E before (quadrants.flatMap fun q => visit ((Node.ofNat level index).child q))
      (fun parts after => parts.length = 4 ∧ (∀ part ∈ parts, post part) ∧
        Saves s before after
          (quadrants.flatMap fun q => rebuilt ((Node.ofNat level index).child q)))
      (quadrants.mapM fun q => f ((Node.ofNat level index).child q)) := by
  refine does_mapM (fun q => Agrees s skips (level + 1) (4 * index + q.toNat)) ?_ ?_ ?_
  · have hnodup : quadrants.Nodup := by decide
    refine hnodup.imp_of_mem ?_
    intro q q' hq _ hne before after hsaves hready
    refine hready.saves hsaves fun n hn hbelow' => hne ?_
    have hchild := Node.child_lt hi (toNat_lt_of_mem_quadrants hq)
    rw [child_of_mem_quadrants hl hi hq] at hn
    have hindex := (hbelow _ hchild n hn).index_eq hbelow'
    exact UInt64.toNat_inj.1 (by omega)
  · intro q hq before hready
    have hq4 := toNat_lt_of_mem_quadrants hq
    rw [child_of_mem_quadrants hl hi hq]
    exact hf _ (Node.child_lt hi hq4) (by omega) before hready
  · intro q hq
    have hq4 := toNat_lt_of_mem_quadrants hq
    refine hagrees.below (Nat.le_succ level) ?_
    rw [Nat.add_sub_cancel_left, Nat.pow_one]
    omega

theorem does_join (h1 : 1 ≤ levels) {parts : List Subtree} (h4 : parts.length = 4)
    (hlevels : ∀ part ∈ parts, part.levels = levels) :
    Does E before [] (fun t after => t.levels = levels + 1 ∧ after = before)
      (check (Subtree.concatenate parts)) := by
  obtain ⟨t, ht, hjoin⟩ := Subtree.exists_isJoin h4 hlevels h1
  exact .check ht ⟨hjoin.levels_eq, rfl⟩

theorem does_summary {t : Subtree} (h1 : 1 ≤ t.levels) :
    Does E before [] (fun r after => r.levels = 1 ∧ after = before) (check t.summary) := by
  obtain ⟨r, hr, hsummary⟩ := t.exists_isSummary h1
  exact .check hr ⟨hsummary.levels_eq, rfl⟩

theorem does_descend_last (hs : s.Valid) (hl : level + 1 + depth = s.maxRankRoot)
    (hi : index < 4 ^ level)
    (hresolve : ∀ m < 4 ^ (level + 1), m / 4 = index →
      FindsNext s E skips depth s.subtreeLevels (level + 1) m resolve)
    (hagrees : Agrees s skips level index before) :
    Finds s E before
      (quadrants.flatMap fun q =>
        visitNext s skips (visitFrom s E skips depth) ((Node.ofNat level index).child q))
      (quadrants.flatMap fun q =>
        rebuiltNext s skips (rebuiltFrom s E skips depth) ((Node.ofNat level index).child q)) 1
      (do
        let parts ← quadrants.mapM fun q => do
          check (← resolve ((Node.ofNat level index).child q)).summary
        let joined ← check (Subtree.concatenate parts)
        check joined.summary) := by
  have hmax := hs.maxRankRoot_lt
  refine (does_quadrants (f := fun n => resolve n >>= fun sub => check sub.summary)
    (rebuiltNext s skips (rebuiltFrom s E skips depth)) (fun r : Subtree => r.levels = 1) (by omega)
    hi ?_ ?_ hagrees).bind_quiet ?_
  · intro m hm n hn
    exact atOrBelow_of_mem_rebuiltNext hs hl hm hn
  · intro m hm hbelow before hagrees
    refine (hresolve m hm hbelow before hagrees).bind_quiet ?_
    rintro sub after ⟨hlevels, hsaves⟩
    refine (does_summary (hlevels ▸ hs.levels_pos)).mono ?_
    rintro r _ ⟨hr, rfl⟩
    exact ⟨hr, hsaves⟩
  · rintro parts after ⟨h4, hone, hsaves⟩
    refine (does_join (Nat.le_refl 1) h4 hone).bind ?_
    rintro joined _ ⟨hjoined, rfl⟩
    refine (does_summary (by rw [hjoined]; decide)).mono ?_
    rintro t _ ⟨ht, rfl⟩
    exact ⟨ht, hsaves⟩

theorem does_descend_inside (hs : s.Valid) (h1 : 1 ≤ levels)
    (hl : level + 1 + depth = s.maxRankRoot) (hi : index < 4 ^ level)
    (hquadrant : ∀ m < 4 ^ (level + 1), m / 4 = index →
      FindsNext s E skips depth levels (level + 1) m (descend resolve levels))
    (hagrees : Agrees s skips level index before) :
    Finds s E before
      (quadrants.flatMap fun q =>
        visitNext s skips (visitFrom s E skips depth) ((Node.ofNat level index).child q))
      (quadrants.flatMap fun q =>
        rebuiltNext s skips (rebuiltFrom s E skips depth) ((Node.ofNat level index).child q))
      (levels + 1)
      (do
        let parts ← quadrants.mapM fun q =>
          descend resolve levels ((Node.ofNat level index).child q)
        check (Subtree.concatenate parts)) := by
  have hmax := hs.maxRankRoot_lt
  refine (does_quadrants (rebuiltNext s skips (rebuiltFrom s E skips depth))
    (fun part : Subtree => part.levels = levels) (by omega) hi ?_ hquadrant hagrees).bind_quiet ?_
  · intro m hm n hn
    exact atOrBelow_of_mem_rebuiltNext hs hl hm hn
  · rintro parts after ⟨h4, hlevels, hsaves⟩
    refine (does_join h1 h4 hlevels).mono ?_
    rintro t _ ⟨ht, rfl⟩
    exact ⟨ht, hsaves⟩

/-- Going down a rank asks for the tiles in the order of the traversal, provided that resolving the
roots of the next rank does. -/
theorem does_descend (hs : s.Valid) (h1 : 1 ≤ levels) (hl : level + levels + depth = s.maxRankRoot)
    (hinside : ∀ level', level < level' → level' < level + levels → s.isRankRoot level' = false)
    (hi : index < 4 ^ level)
    (hresolve : ∀ m < 4 ^ (level + levels), m / 4 ^ levels = index →
      FindsNext s E skips depth s.subtreeLevels (level + levels) m resolve) :
    FindsFrom s E skips (depth + levels) levels level index (descend resolve levels) := by
  -- The way down ends at the roots of the next rank, which stay where they are.
  induction levels generalizing level index with
  | zero => exact absurd h1 (by decide)
  | succ levels ih =>
    intro before hagrees
    unfold Finds
    rw [← Nat.add_assoc depth, visitFrom_succ, rebuiltFrom_succ]
    refine (does_query _).bind ?_
    rintro _ before ⟨rfl, rfl⟩
    cases E (Node.ofNat level index) with
    | false =>
      refine (does_note _).bind ?_
      rintro _ _ rfl
      exact .pure ⟨rfl, .refl _⟩
    | true =>
      by_cases h0 : levels = 0
      · subst h0
        exact does_descend_last hs hl hi hresolve hagrees
      · simp only [if_neg h0, if_true]
        refine does_descend_inside hs (by omega) (by omega) hi ?_ hagrees
        intro m hm hbelow
        refine (ih (by omega) (by omega) ?_ hm ?_).next (hinside _ (by omega) (by omega))
        · intro level' hlt hlt'
          exact hinside level' (by omega) (by omega)
        · have hlevel : level + 1 + levels = level + (levels + 1) := by omega
          rw [hlevel]
          intro m' hm' hbelow'
          refine hresolve m' hm' ?_
          rw [Nat.pow_succ, ← Nat.div_div_eq_div_mul, hbelow', hbelow]

end

theorem not_isRankRoot_between {level' : Nat} (hroot : s.isRankRoot level = true)
    (hlt : level < level') (hlt' : level' < level + s.subtreeLevels) :
    s.isRankRoot level' = false := by
  by_contra h
  have hdvd := Nat.dvd_sub (Schedule.dvd_of_isRankRoot (Bool.eq_true_of_not_eq_false h))
    (Schedule.dvd_of_isRankRoot hroot)
  have hle := Nat.le_of_dvd (by omega) hdvd
  omega

/-- **Building a rank asks for the tiles in the order of the traversal.** -/
theorem does_buildRank (hs : s.Valid) (hreload : s.reload = false) {ranks : Nat}
    (hmin : s.minLevel ≤ level) (hl : level + ranks * s.subtreeLevels = s.maxRankRoot)
    (hi : index < 4 ^ level) :
    FindsFrom s E skips (ranks * s.subtreeLevels) s.subtreeLevels level index
      (buildRank s ranks) := by
  have hmax := hs.maxRankRoot_lt
  have hpos := hs.levels_pos
  induction ranks generalizing level index with
  | zero =>
    intro before _
    rw [Nat.zero_mul]
    exact does_buildDeepest hs _
  | succ ranks ih =>
    have hroot := hs.isRankRoot_of_add hmin hl
    rw [Nat.succ_mul] at hl ⊢
    have hnext : level + s.subtreeLevels + ranks * s.subtreeLevels = s.maxRankRoot := by omega
    have hnextRoot := hs.isRankRoot_of_add (by omega) hnext
    refine does_descend hs hpos (by omega) ?_ hi ?_
    · intro level' hlt hlt'
      exact not_isRankRoot_between hroot hlt hlt'
    · intro m hm _
      exact does_resolve hs hreload (by omega) hm hnextRoot (ih (by omega) hnext hm)

/-! ## Requests -/

/-- A request for a rank root that is not cached asks for the tiles in the order of the traversal,
and saves what it builds, the rank root itself last. -/
theorem does_get (hs : s.Valid) (hreload : s.reload = false) {t : Tile}
    (hroot : s.isRankRoot t.level = true) (hin : inLevel t = true)
    (hown : before t.node = none) (hagrees : Agrees s skips t.level t.morton.toNat before) :
    Does E before (visit s E skips t.node) (fun bytes after => after t.node = some bytes ∧
      Saves s before after (rebuilt s E skips t.node ++ [t.node])) (get s t) := by
  obtain ⟨hmin, hranks⟩ := hs.isRankRoot_iff.1 hroot
  have hdepth : s.maxRankRoot - t.node.level = s.ranksBelow t.level * s.subtreeLevels := by
    show s.maxRankRoot - t.level = _
    omega
  have hbuild := does_buildRank (E := E) hs hreload hmin hranks t.morton_lt before hagrees
  rw [get_eq_withLock hroot hin, visit, rebuilt, hdepth]
  unfold fetchBytes
  rw [if_neg (by simp [hreload])]
  refine Does.withLock ((does_fetch t.node).bind ?_)
  rintro _ before ⟨rfl, rfl⟩
  rw [hown]
  rw [← t.node_eq_ofNat] at hbuild
  refine (does_buildAndSave hs hbuild).bind_quiet ?_
  rintro result after ⟨-, hafter, hsaves⟩
  exact .pure ⟨hafter, hsaves⟩

section

variable {σ : Type} {cache : BlobCache (StateM σ)} {blobs : σ → Blobs} {ample : σ → Prop}

/-- **What a request asks for.** Over a cache that drops nothing, where the rank root that is
requested is not cached and all cached blobs of rank roots decode, the request asks for the tiles of
the traversal, in its order: `visit_eq` gives its steps. Below a missing tile it asks for nothing,
from the requested level down to the roots of the deepest rank, and it asks for no tile twice if the
ranks have two levels or more. -/
theorem get_visits (hs : s.Valid) (hreload : s.reload = false) (E : Node → Bool)
    (hcache : cache.Lossless blobs ample) {t : Tile} (hroot : s.isRankRoot t.level = true)
    (hx : t.x.toNat < 2 ^ t.level) (hy : t.y.toNat < 2 ^ t.level) (session : Session σ)
    (hample : ample session.cache) (hown : blobs session.cache t.node = none)
    (hdecodes : ∀ n blob, s.isRankRoot n.level = true → n.index.toNat < 4 ^ n.level →
      blobs session.cache n = some blob → ∃ sub, Subtree.decode blob s.subtreeLevels = .ok sub) :
    ∃ bytes after tiles,
      Session.perform (.ofFunction E) cache (get s t) session = (.ok bytes, after) ∧
      queried after.events = queried session.events ++ tiles ∧
      tiles = visit s E (fun n => (blobs session.cache n).isSome) t.node ∧
      (∀ n ∈ tiles, n.level ≤ s.maxLevel ∧ ∀ level, t.level ≤ level → level < n.level →
        level ≤ s.maxRankRoot → E (n.ancestor level) = true) ∧
      (2 ≤ s.subtreeLevels → tiles.Nodup) := by
  have hin : inLevel t = true := inLevel_eq_true_iff.2 ⟨hx, hy⟩
  have hagrees : Agrees s (fun n => (blobs session.cache n).isSome) t.level t.morton.toNat
      (blobs session.cache) := by
    intro n hn hroot
    dsimp only
    cases hblob : blobs session.cache n with
    | none => exact not_served_of_none hblob
    | some blob =>
      obtain ⟨sub, hsub⟩ := hdecodes n blob hroot (hn.index_lt t.morton_lt) hblob
      exact served_of_decode hblob hsub
  obtain ⟨bytes, after, hperform, hqueried, -⟩ :=
    (does_get (E := E) hs hreload hroot hin hown hagrees).perform hcache hample
  obtain ⟨depth, hdepth, hvisit⟩ := visit_node hs E _ hroot
  have hlast := hs.maxRankRoot_add
  have hmax := hs.max_lt
  have hpos := hs.levels_pos
  refine ⟨bytes, after, _, hperform, hqueried, rfl, ?_, ?_⟩
  · intro n hn
    rw [hvisit] at hn
    have hvisited := visited_of_mem (by omega) t.morton_lt hn
    rw [hdepth] at hvisited
    have hle := hvisited.level_le
    exact ⟨by omega, hvisited.exists_above⟩
  · intro h2
    rw [hvisit]
    exact nodup_visitFrom h2 (by omega) t.morton_lt

end

/-- Two ranks of two levels each. The first two tiles of each level exist, and the second root of
the second rank is cached. -/
theorem get_visits_second_cached :
    ∃ bytes after, Session.perform (.ofFunction fun n => n.index ≤ 1) Blobs.cache
        (get ⟨0, 3, 2, false⟩ ⟨0, 0, 0⟩)
        ⟨Function.update (fun _ => none) ⟨2, 1⟩ (some (Subtree.empty 2).encode), 0, []⟩ =
          (.ok bytes, after) ∧
      queried after.events = [⟨0, 0⟩,
        ⟨1, 0⟩, ⟨2, 0⟩, ⟨3, 0⟩, ⟨3, 1⟩, ⟨3, 2⟩, ⟨3, 3⟩, ⟨2, 2⟩, ⟨2, 3⟩,
        ⟨1, 1⟩, ⟨2, 4⟩, ⟨2, 5⟩, ⟨2, 6⟩, ⟨2, 7⟩, ⟨1, 2⟩, ⟨1, 3⟩] := by
  obtain ⟨bytes, after, tiles, hperform, hqueried, rfl, -, -⟩ :=
    get_visits (s := ⟨0, 3, 2, false⟩) (t := ⟨0, 0, 0⟩) ((Schedule.validate_eq_ok_iff _).1 rfl) rfl
      (fun n => n.index ≤ 1) Blobs.lossless rfl Nat.one_pos Nat.one_pos
      ⟨Function.update (fun _ => none) ⟨2, 1⟩ (some (Subtree.empty 2).encode), 0, []⟩ trivial
      (by decide) (by
        intro n blob _ _ hblob
        dsimp only at hblob
        rw [Function.update_apply] at hblob
        split at hblob
        · cases hblob
          exact ⟨_, Subtree.decode_of_encode rfl (by decide) (by decide)⟩
        · cases hblob)
  refine ⟨bytes, after, hperform, hqueried.trans ?_⟩
  decide

end ImplicitTiling.Store
