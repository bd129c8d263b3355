import ImplicitTiling.Proofs.Store.Building
import ImplicitTiling.Proofs.Store.Caches
import ImplicitTiling.Store.Session

/-!
# What a request is answered with

A session whose oracle answers one function of the tile, and whose cache holds bytes of the right
subtrees only, keeps the store's contract (`answer_keeps`). So each request for a rank root
is answered with the one subtree that `Occupied` describes: `perform_get_eq_encode`.
-/

namespace ImplicitTiling

namespace Oracle

/-- The oracle that never fails and answers a function of the tile. -/
def ofFunction (E : Node → Bool) : Oracle :=
  fun _ n => .ok (E n)

/-- The oracle answers `E` of a tile; it may fail only if failures are allowed. -/
def Follows (oracle : Oracle) (E : Node → Bool) (fails : Prop) : Prop :=
  ∀ call n, Outcome fails (fun found => found = E n) (oracle call n)

theorem follows_ofFunction (E : Node → Bool) (fails : Prop) : (ofFunction E).Follows E fails :=
  fun _ _ => rfl

theorem Follows.failingAt {oracle : Oracle} {E : Node → Bool} (h : oracle.Follows E True)
    (failure : Error) (failed : Nat) : (oracle.failingAt failure failed).Follows E True := by
  intro call n
  unfold Oracle.failingAt
  split
  · trivial
  · exact h call n

end Oracle

namespace Store

variable {σ : Type} {s : Schedule} {E : Node → Bool} {good : Node → ByteArray → Prop}
  {fails : Prop} {oracle : Oracle} {cache : BlobCache (StateM σ)} {blobs : σ → Blobs}

/-- A session keeps the contract of the store, and its cache goes on to hold good bytes only. -/
theorem answer_keeps_over (hgood : ∀ n blob, IsBlob s E n blob → good n blob)
    (horacle : oracle.Follows E fails) (hcache : cache.Keeps blobs) (a : Action)
    (session : Session σ) (hasks : (contractOver s E good fails).asks a)
    (hblobs : (blobs session.cache).All good) :
    (contractOver s E good fails).answers a ((Session.answer oracle cache a).run session).1 ∧
      (blobs ((Session.answer oracle cache a).run session).2.cache).All good := by
  obtain ⟨c, calls, events⟩ := session
  cases a with
  | query n => exact ⟨horacle calls n, hblobs⟩
  | fetch n =>
    refine ⟨?_, (hcache.get_forgets c n).all hblobs⟩
    show Outcome fails _ ((cache.get n).run c).1
    rw [hcache.get_eq]
    exact hblobs n
  | save n blob =>
    refine ⟨?_, (hcache.put_forgets c n blob).all (hblobs.update (hgood n blob hasks))⟩
    show Outcome fails _ ((cache.put n blob).run c).1
    rw [hcache.put_eq]
    trivial
  | lock n => exact ⟨trivial, hblobs⟩
  | unlock n => exact ⟨trivial, hblobs⟩
  | note r => exact ⟨trivial, hblobs⟩

theorem answer_keeps (horacle : oracle.Follows E fails)
    (hcache : cache.Keeps blobs) (a : Action) (session : Session σ)
    (hasks : (contract s E fails).asks a)
    (hblobs : (blobs session.cache).All (IsBlob s E)) :
    (contract s E fails).answers a ((Session.answer oracle cache a).run session).1 ∧
      (blobs ((Session.answer oracle cache a).run session).2.cache).All (IsBlob s E) :=
  answer_keeps_over (fun _ _ h => h) horacle hcache a session hasks hblobs

/-- Over a cache of good bytes a request for a rank root succeeds, in every session whose oracle does
not fail. -/
theorem exists_isAnswer_over (hs : s.Valid) (hcache : cache.Keeps blobs) {t : Tile}
    (hroot : s.isRankRoot t.level = true) (hin : inLevel t = true)
    (hgood : ∀ n blob, IsBlob s E n blob → good n blob)
    (hown : s.reload = false → ∀ blob, good t.node blob → IsBlob s E t.node blob)
    (hbelow : GoodBelow s E good t.level t.morton.toNat) (session : Session σ)
    (hblobs : (blobs session.cache).All good) :
    ∃ bytes, IsAnswer s E t bytes ∧
      (Session.perform (.ofFunction E) cache (get s t) session).1 = .ok bytes := by
  have hmeets : Build.Meets (contractOver s E good False) False (IsAnswer s E t) (get s t) :=
    meets_get_over hs (fun h => h ⟨hroot, hin⟩) hown hbelow
  have hanswer : Outcome False (IsAnswer s E t)
      (Session.perform (.ofFunction E) cache (get s t) session).1 :=
    (Routine.Meets.run (answer_keeps_over hgood (Oracle.follows_ofFunction E False) hcache) hmeets
      hblobs).1
  cases hresult : (Session.perform (.ofFunction E) cache (get s t) session).1 with
  | ok bytes =>
    rw [hresult] at hanswer
    exact ⟨bytes, hanswer, rfl⟩
  | error e =>
    rw [hresult] at hanswer
    exact hanswer.elim

theorem exists_isAnswer (hs : s.Valid) (hcache : cache.Keeps blobs) {t : Tile}
    (hroot : s.isRankRoot t.level = true) (hin : inLevel t = true) (session : Session σ)
    (hblobs : (blobs session.cache).All (IsBlob s E)) :
    ∃ bytes, IsAnswer s E t bytes ∧
      (Session.perform (.ofFunction E) cache (get s t) session).1 = .ok bytes :=
  exists_isAnswer_over hs hcache hroot hin (fun _ _ h => h) (fun _ _ h => h)
    (goodBelow_isBlob hs _ _) session hblobs

/-- **What the store builds.** From an empty cache, with an oracle that answers the function `E` of
the tile, a rank root is answered with the bytes of a subtree `sub` whose tiles are the occupied
nodes of its levels and whose children are the occupied rank roots below. In the deepest rank every
tile has content, in the ranks above none has. -/
theorem perform_get_eq_encode (hs : s.Valid) (E : Node → Bool) (hcache : cache.Keeps blobs)
    {t : Tile} (hroot : s.isRankRoot t.level = true) (hx : t.x.toNat < 2 ^ t.level)
    (hy : t.y.toNat < 2 ^ t.level) (session : Session σ)
    (hempty : ∀ n, blobs session.cache n = none) :
    ∃ sub : Subtree,
      (Session.perform (.ofFunction E) cache (get s t) session).1 = .ok sub.encode ∧
      sub.levels = s.subtreeLevels ∧
      (∀ i < s.subtreeLevels, ∀ j < 4 ^ i, ((sub.tiles.row i).get j = true ↔
        Occupied s E t.level (t.level + i) (4 ^ i * t.morton.toNat + j))) ∧
      (∀ c < 4 ^ s.subtreeLevels, ((sub.children.row 0).get c = true ↔
        t.level < s.maxRankRoot ∧ Occupied s E t.level (t.level + s.subtreeLevels)
          (4 ^ s.subtreeLevels * t.morton.toNat + c))) ∧
      (t.level = s.maxRankRoot → sub.content = sub.tiles) ∧
      (t.level < s.maxRankRoot → sub.content = .empty s.subtreeLevels .pyramid) := by
  have hin : inLevel t = true := by
    unfold inLevel
    rw [decide_eq_true hx, decide_eq_true hy, Bool.and_true]
  obtain ⟨_, ⟨-, -, sub, hsub, rfl⟩, hget⟩ :=
    exists_isAnswer hs hcache hroot hin session (Blobs.all_of_empty hempty)
  exact ⟨sub, hget, hsub.levels_eq, hsub.tile, hsub.child, hsub.content_deepest,
    hsub.content_above⟩

/-- Two ranks of one level each, above a single tile in the third quadrant. -/
theorem perform_get_eq_encode_third_quadrant :
    ∃ sub : Subtree, (Session.perform (.ofFunction fun n => n.level == 0 || n.index == 2)
        MemoryCache.cache (get ⟨0, 1, 1, false⟩ ⟨0, 0, 0⟩) ⟨.empty none, 0, []⟩).1 =
          .ok sub.encode ∧
      sub.levels = 1 ∧ (sub.tiles.row 0).get 0 = true ∧ (sub.children.row 0).get 2 = true ∧
      (sub.children.row 0).get 3 = false ∧ sub.content = .empty 1 .pyramid := by
  obtain ⟨sub, hget, hlevels, htile, hchild, -, hcontent⟩ :=
    perform_get_eq_encode (s := ⟨0, 1, 1, false⟩) (t := ⟨0, 0, 0⟩)
      ((Schedule.validate_eq_ok_iff _).1 rfl)
      (fun n => n.level == 0 || n.index == 2) MemoryCache.keeps rfl Nat.one_pos Nat.one_pos
      ⟨.empty none, 0, []⟩ (MemoryCache.held_empty none)
  refine ⟨sub, hget, hlevels, ?_, ?_, ?_, hcontent (by decide)⟩
  · exact (htile 0 (by decide) 0 (by decide)).2 (by decide)
  · exact (hchild 2 (by decide)).2 (by decide)
  · exact Bool.eq_false_of_not_eq_true fun h => absurd ((hchild 3 (by decide)).1 h) (by decide)

end Store

end ImplicitTiling
