import ImplicitTiling.Proofs.Store.Failures
import ImplicitTiling.Proofs.Store.History
import ImplicitTiling.Proofs.Subtree.Layout

/-!
# The cache of another schedule

A cache tells its blobs apart by level and index alone, and nothing in a blob tells which schedule it
was made for. A store that goes on with the cache of another schedule gives the blob of the rank root
asked for as it stands, and of the blobs further down it takes no more than their roots. So it answers
as over an empty cache where the rank root is not cached and the roots below it mean the same under
both schedules. For every oracle and every request it does so only if both schedules cut the same
levels into the same ranks, or if it builds anew: `get_over_reused`.
-/

namespace ImplicitTiling

theorem Routine.run_bind {σ α β : Type} (answer : (a : Action) → StateM σ a.Answer) (r : Routine α)
    (f : α → Routine β) : (r.bind f).run answer = r.run answer >>= fun a => (f a).run answer := by
  induction r with
  | done a => rfl
  | ask action next ih =>
    show (answer action >>= fun given => ((next given).bind f).run answer) = _
    rw [funext ih]
    exact (bind_assoc (answer action) _ _).symm

namespace Session

variable {σ α β : Type} (oracle : Oracle) (cache : BlobCache (StateM σ))

theorem perform_bind (b : Build α) (f : α → Build β) (session : Session σ) :
    perform oracle cache (b >>= f) session =
      match perform oracle cache b session with
      | (.ok a, after) => perform oracle cache (f a) after
      | (.error e, after) => (.error e, after) := by
  have hrun := congrArg (fun run => run.run session)
    (Routine.run_bind (answer oracle cache) b.run (ExceptT.bindCont f))
  refine hrun.trans ?_
  show ((ExceptT.bindCont f (perform oracle cache b session).1).run (answer oracle cache)).run
    (perform oracle cache b session).2 = _
  cases perform oracle cache b session with
  | mk result after => cases result <;> rfl

theorem perform_withLock (n : Node) (body : Build α) (session : Session σ) :
    perform oracle cache (Build.withLock n body) session = perform oracle cache body session :=
  congrArg (fun run => run.run session) (Routine.run_bind (answer oracle cache) body.run
    fun result => .ask (.unlock n) fun _ => .done result)

end Session

namespace Store

variable {s s₁ s₂ : Schedule} {E : Node → Bool} {t : Tile}

/-! ## The rank root that is asked for -/

section

variable {σ : Type} {cache : BlobCache (StateM σ)} {blobs : σ → Blobs}

theorem perform_fetchBytes (hcache : cache.Keeps blobs) (oracle : Oracle) (s : Schedule) (n : Node)
    (session : Session σ) : ∃ after,
      Session.perform oracle cache (fetchBytes s n) session =
        (.ok (if s.reload then none else blobs session.cache n), after) ∧
      (after.cache = session.cache ∨ after.cache = ((cache.get n).run session.cache).2) := by
  unfold fetchBytes
  split
  · exact ⟨session, rfl, .inl rfl⟩
  · obtain ⟨c, calls, events⟩ := session
    refine ⟨⟨((cache.get n).run c).2, calls, .fetched n ((cache.get n).run c).1 :: events⟩, ?_,
      .inr rfl⟩
    rw [← hcache.get_eq c n]
    rfl

/-- **A cached blob is given as it stands.** -/
theorem perform_get_of_cached (hcache : cache.Keeps blobs) (oracle : Oracle)
    (hreload : s.reload = false) (hroot : s.isRankRoot t.level = true) (hin : inLevel t = true)
    {session : Session σ} {blob : ByteArray} (hblob : blobs session.cache t.node = some blob) :
    (Session.perform oracle cache (get s t) session).1 = .ok blob := by
  obtain ⟨after, hfetch, -⟩ := perform_fetchBytes hcache oracle s t.node session
  rw [hreload, hblob] at hfetch
  rw [get_eq_withLock hroot hin, Session.perform_withLock, Session.perform_bind, hfetch]
  rfl

end

theorem cached_of_buildAndSave {oracle : Oracle} {build : Node → Build Subtree} {n : Node}
    {session after : Session Blobs} {result : Subtree × ByteArray}
    (h : Session.perform oracle Blobs.cache (buildAndSave build n) session = (.ok result, after)) :
    after.cache n = some result.2 := by
  unfold buildAndSave at h
  rw [Session.perform_bind] at h
  cases hbuilt : Session.perform oracle Blobs.cache (build n) session with
  | mk built middle =>
    rw [hbuilt] at h
    cases built with
    | error e => cases h
    | ok sub =>
      obtain ⟨c, calls, events⟩ := middle
      obtain ⟨hresult, rfl⟩ := Prod.mk.inj h
      cases hresult
      exact Function.update_self _ _ _

theorem cached_of_get {oracle : Oracle} {session after : Session Blobs} {bytes : ByteArray}
    (hroot : s.isRankRoot t.level = true) (hin : inLevel t = true)
    (h : Session.perform oracle Blobs.cache (get s t) session = (.ok bytes, after)) :
    after.cache t.node = some bytes := by
  obtain ⟨middle, hfetch, hmiddle⟩ := perform_fetchBytes Blobs.keeps oracle s t.node session
  have hcache : middle.cache = session.cache := hmiddle.elim id id
  rw [get_eq_withLock hroot hin, Session.perform_withLock, Session.perform_bind, hfetch] at h
  dsimp only at h
  cases hfound : (if s.reload then none else session.cache t.node) with
  | some blob =>
    rw [hfound] at h
    obtain ⟨hresult, rfl⟩ := Prod.mk.inj h
    cases hresult
    have hblob : session.cache t.node = some bytes := by
      split at hfound
      · cases hfound
      · exact hfound
    exact (congrFun hcache t.node).trans hblob
  | none =>
    rw [hfound] at h
    dsimp only at h
    rw [Session.perform_bind] at h
    split at h
    · next result after' hsaved =>
      obtain ⟨hresult, rfl⟩ := Prod.mk.inj h
      cases hresult
      exact cached_of_buildAndSave hsaved
    · cases h

/-! ## The rank roots below -/

/-- The rank root stands below a tile. -/
def Below (t : Tile) (n : Node) : Prop :=
  t.level < n.level ∧ n.index.toNat / 4 ^ (n.level - t.level) = t.morton.toNat

/-- A subtree with this root has it available under both schedules, or under neither. -/
def SameRoot (s₁ s₂ : Schedule) (E : Node → Bool) (n : Node) : Prop :=
  Occupied s₁ E n.level n.level n.index.toNat ↔ Occupied s₂ E n.level n.level n.index.toNat

theorem IsBlob.reads_of_sameRoot (hs₁ : s₁.Valid) (hs₂ : s₂.Valid) {n : Node} {blob : ByteArray}
    (h : IsBlob s₁ E n blob) (hsame : SameRoot s₁ s₂ E n) :
    Reads s₂ E n.level n.index.toNat blob := by
  obtain ⟨level, index, sub, rfl, hi, hroot, hsub, rfl⟩ := h
  have hindex : (Node.ofNat level index).index.toNat = index :=
    Node.toNat_index_ofNat (hs₁.level_lt hroot).le hi
  unfold SameRoot at hsame
  rw [hindex] at hsame ⊢
  intro sub' hdecode
  obtain ⟨hlevels, hroots⟩ := Subtree.decode_encode_root (hsub.levels_eq ▸ hs₁.levels_pos)
    (hsub.levels_eq ▸ hs₁.levels_le) hs₂.levels_pos hs₂.levels_le hdecode
  refine ⟨hlevels, ?_⟩
  rw [hroots, hsub.isAvailable_iff hs₁.levels_pos]
  exact hsame

/-- What the cache of another schedule holds does not show in the answer to a request: the tile is not
cached, and the cached rank roots below it are the same. -/
structure Unnoticed (s₁ s₂ : Schedule) (E : Node → Bool) (blobs : Blobs) (t : Tile) : Prop where
  own : blobs t.node = none
  below : ∀ n blob, blobs n = some blob → s₂.isRankRoot n.level = true → Below t n →
    SameRoot s₁ s₂ E n

theorem exists_isAnswer_reused {σ : Type} {cache : BlobCache (StateM σ)} {blobs : σ → Blobs}
    (hs₁ : s₁.Valid) (hs₂ : s₂.Valid) (hcache : cache.Keeps blobs)
    (hroot : s₂.isRankRoot t.level = true) (hin : inLevel t = true) {session : Session σ}
    (hblobs : (blobs session.cache).All (IsBlob s₁ E))
    (h : s₂.reload = false → Unnoticed s₁ s₂ E (blobs session.cache) t) :
    ∃ bytes, IsAnswer s₂ E t bytes ∧
      (Session.perform (.ofFunction E) cache (get s₂ t) session).1 = .ok bytes := by
  let good : Node → ByteArray → Prop := fun n blob =>
    IsBlob s₂ E n blob ∨ blobs session.cache n = some blob
  have hgood (n : Node) (blob : ByteArray) : IsBlob s₂ E n blob → good n blob := .inl
  refine exists_isAnswer_over hs₂ hcache hroot hin hgood ?_ ?_ session fun _ _ => .inr
  · rintro hreload blob (hblob | hblob)
    · exact hblob
    · cases (h hreload).own.symm.trans hblob
  · rintro level index hlt hlevel hi hbelow hreload blob (hblob | hblob)
    · exact hblob.reads hs₂ (hs₂.level_lt hlevel).le hi
    · have hindex : (Node.ofNat level index).index.toNat = index :=
        Node.toNat_index_ofNat (hs₂.level_lt hlevel).le hi
      have hreads := (hblobs _ blob hblob).reads_of_sameRoot hs₁ hs₂
        ((h hreload).below _ blob hblob hlevel ⟨hlt, hindex.symm ▸ hbelow⟩)
      rw [hindex] at hreads
      exact hreads

/-! ## Which schedules are told apart -/

/-- All nodes of the topmost rank are occupied, or none is. -/
def RootUniform (s : Schedule) (E : Node → Bool) (v : Bool) : Prop :=
  ∀ i < s.subtreeLevels, ∀ j < 4 ^ i, (Occupied s E 0 i j ↔ v = true)

theorem IsBuilt.uniform_iff {sub : Subtree} (h : IsBuilt s E 0 0 s.subtreeLevels sub) (v : Bool) :
    sub.tiles.Uniform v ↔ RootUniform s E v := by
  rw [Availability.uniform_pyramid_iff sub.tiles_topology, sub.tiles_levels, h.levels_eq]
  refine forall₂_congr fun i hi => forall₂_congr fun j hj => ?_
  have htile := h.tile i hi j hj
  rw [Nat.zero_add, Nat.mul_zero, Nat.zero_add] at htile
  rw [← htile, Bool.eq_iff_iff]

theorem isRankRoot_root (hmin : s.minLevel = 0) : s.isRankRoot 0 = true := by
  unfold Schedule.isRankRoot
  simp [hmin]

theorem exists_isBuilt_of_fresh_eq (hs₁ : s₁.Valid) (hs₂ : s₂.Valid) (h₁ : s₁.minLevel = 0)
    (h₂ : s₂.minLevel = 0) (h : fresh s₁ E ⟨0, 0, 0⟩ = fresh s₂ E ⟨0, 0, 0⟩) :
    ∃ sub₁ sub₂, IsBuilt s₁ E 0 0 s₁.subtreeLevels sub₁ ∧ IsBuilt s₂ E 0 0 s₂.subtreeLevels sub₂ ∧
      ∀ v, (sub₁.tiles.Uniform v ↔ sub₂.tiles.Uniform v) ∧
        (sub₁.children.Uniform v ↔ sub₂.children.Uniform v) := by
  obtain ⟨-, -, sub₁, hsub₁, hbytes₁⟩ :=
    isAnswer_freshBytes (E := E) (t := ⟨0, 0, 0⟩) hs₁ (isRankRoot_root h₁) rfl
  obtain ⟨-, -, sub₂, hsub₂, hbytes₂⟩ :=
    isAnswer_freshBytes (E := E) (t := ⟨0, 0, 0⟩) hs₂ (isRankRoot_root h₂) rfl
  have hencode : sub₁.encode = sub₂.encode := by
    rw [← hbytes₁, ← hbytes₂, freshBytes, freshBytes, h]
  have hlevels {s : Schedule} (hs : s.Valid) {sub : Subtree}
      (hsub : IsBuilt s E 0 0 s.subtreeLevels sub) : 1 ≤ sub.levels ∧ sub.levels ≤ 30 := by
    rw [hsub.levels_eq]
    exact ⟨hs.levels_pos, Nat.le_trans hs.levels_le (by decide)⟩
  exact ⟨sub₁, sub₂, hsub₁, hsub₂, Subtree.uniform_iff_of_encode_eq (hlevels hs₁ hsub₁).1
    (hlevels hs₁ hsub₁).2 (hlevels hs₂ hsub₂).1 (hlevels hs₂ hsub₂).2 hencode⟩

theorem rootUniform_iff_of_fresh_eq (hs₁ : s₁.Valid) (hs₂ : s₂.Valid) (h₁ : s₁.minLevel = 0)
    (h₂ : s₂.minLevel = 0) (h : fresh s₁ E ⟨0, 0, 0⟩ = fresh s₂ E ⟨0, 0, 0⟩) (v : Bool) :
    RootUniform s₁ E v ↔ RootUniform s₂ E v := by
  obtain ⟨sub₁, sub₂, hsub₁, hsub₂, huniform⟩ := exists_isBuilt_of_fresh_eq hs₁ hs₂ h₁ h₂ h
  rw [← hsub₁.uniform_iff, ← hsub₂.uniform_iff]
  exact (huniform v).1

theorem exists_fresh_ne_of_maxLevel (hs₁ : s₁.Valid) (hs₂ : s₂.Valid) (h₁ : s₁.minLevel = 0)
    (h₂ : s₂.minLevel = 0) (hlt : s₁.maxLevel < s₂.maxLevel) :
    ∃ E, fresh s₁ E ⟨0, 0, 0⟩ ≠ fresh s₂ E ⟨0, 0, 0⟩ := by
  refine ⟨fun n => n.level ≤ s₁.maxLevel, fun h => ?_⟩
  have hroot := (rootUniform_iff_of_fresh_eq hs₁ hs₂ h₁ h₂ h false).2 (by
    rintro i - j -
    refine ⟨?_, nofun⟩
    rintro ⟨leaf, -, -, hleaf, -⟩
    exact absurd (of_decide_eq_true hleaf) (Nat.not_le_of_lt hlt))
  refine absurd ((hroot 0 hs₁.levels_pos 0 Nat.one_pos).1 ⟨0, four_pow_pos _, Nat.zero_div _, ?_⟩)
    Bool.false_ne_true
  refine ⟨decide_eq_true (Nat.le_refl _), fun a _ ha => ?_⟩
  exact decide_eq_true (Nat.le_trans ha hs₁.maxRankRoot_le_maxLevel)

/-- Everything exists down to the last level, and on the last level one tile below each of the last
tiles of the one schedule's topmost rank: the other's topmost rank goes on to tiles without. -/
theorem exists_fresh_ne_of_subtreeLevels (hs₁ : s₁.Valid) (hs₂ : s₂.Valid) (h₁ : s₁.minLevel = 0)
    (h₂ : s₂.minLevel = 0) (hmax : s₁.maxLevel = s₂.maxLevel)
    (hlt : s₁.subtreeLevels < s₂.subtreeLevels) :
    ∃ E, fresh s₁ E ⟨0, 0, 0⟩ ≠ fresh s₂ E ⟨0, 0, 0⟩ := by
  have hpos := hs₁.levels_pos
  have hadd := hs₁.maxRankRoot_add
  have hlast := hs₂.maxRankRoot_add
  have hword : s₁.maxLevel ≤ 32 := hs₁.max_lt.le
  let E : Node → Bool := fun n =>
    n.level < s₁.maxLevel ∨ n.index.toNat % 4 ^ s₁.maxRankRoot = 0
  refine ⟨E, fun h => ?_⟩
  have huniform : RootUniform s₁ E true := by
    intro i hi j hj
    refine ⟨fun _ => rfl, fun _ => ?_⟩
    have hlt : j * 4 ^ (s₁.maxLevel - i) < 4 ^ s₁.maxLevel := by
      have hpow : 4 ^ s₁.maxLevel = 4 ^ i * 4 ^ (s₁.maxLevel - i) := by
        rw [← Nat.pow_add]
        congr 1
        omega
      rw [hpow]
      exact Nat.mul_lt_mul_of_pos_right hj (four_pow_pos _)
    have hleaf : E (.ofNat s₁.maxLevel (j * 4 ^ (s₁.maxLevel - i))) = true := by
      refine decide_eq_true (.inr (Nat.mod_eq_zero_of_dvd ?_))
      rw [Node.toNat_index_ofNat hword hlt]
      exact Nat.dvd_mul_left_of_dvd (Nat.pow_dvd_pow 4 (by omega)) _
    refine ⟨_, hlt, Nat.mul_div_cancel _ (four_pow_pos _), hleaf, fun a _ ha => ?_⟩
    rcases Nat.eq_or_lt_of_le (show a ≤ s₁.maxLevel by omega) with rfl | ha
    · rw [Nat.sub_self, Nat.pow_zero, Nat.div_one]
      exact hleaf
    · exact decide_eq_true (.inl ha)
  obtain ⟨leaf, hleaf, hbelow, hE, -⟩ :=
    ((rootUniform_iff_of_fresh_eq hs₁ hs₂ h₁ h₂ h true).1 huniform s₁.subtreeLevels hlt 1
      (Nat.one_lt_pow (by omega) (by decide))).2 rfl
  rw [← hmax] at hleaf hbelow hE
  rcases of_decide_eq_true hE with hless | hmod
  · exact Nat.lt_irrefl _ hless
  · rw [Node.toNat_index_ofNat hword hleaf] at hmod
    obtain ⟨q, rfl⟩ := Nat.dvd_of_mod_eq_zero hmod
    have hpow : 4 ^ s₁.maxRankRoot = 4 ^ (s₁.maxLevel - s₁.subtreeLevels) * 4 := by
      rw [← Nat.pow_succ]
      congr 1
      omega
    rw [hpow, Nat.mul_assoc, Nat.mul_div_cancel_left _ (four_pow_pos _)] at hbelow
    omega

/-- Schedules that do not cut the same levels into the same ranks are told apart by some oracle. -/
theorem exists_fresh_ne (hs₁ : s₁.Valid) (hs₂ : s₂.Valid) (h₁ : s₁.minLevel = 0)
    (h₂ : s₂.minLevel = 0)
    (h : ¬ (s₁.maxLevel = s₂.maxLevel ∧ s₁.subtreeLevels = s₂.subtreeLevels)) :
    ∃ E, fresh s₁ E ⟨0, 0, 0⟩ ≠ fresh s₂ E ⟨0, 0, 0⟩ := by
  rcases Nat.lt_trichotomy s₁.maxLevel s₂.maxLevel with hlt | hmax | hlt
  · exact exists_fresh_ne_of_maxLevel hs₁ hs₂ h₁ h₂ hlt
  · rcases Nat.lt_or_gt_of_ne fun hlevels => h ⟨hmax, hlevels⟩ with hlt | hlt
    · exact exists_fresh_ne_of_subtreeLevels hs₁ hs₂ h₁ h₂ hmax hlt
    · obtain ⟨E, hne⟩ := exists_fresh_ne_of_subtreeLevels hs₂ hs₁ h₂ h₁ hmax.symm hlt
      exact ⟨E, hne.symm⟩
  · obtain ⟨E, hne⟩ := exists_fresh_ne_of_maxLevel hs₂ hs₁ h₂ h₁ hlt
    exact ⟨E, hne.symm⟩

/-! ## All requests -/

/-- The answer to a request over a cache that holds `blobs` and drops nothing. The oracle never
fails. -/
def answerOver (s : Schedule) (E : Node → Bool) (blobs : Blobs) (t : Tile) :
    Except Error ByteArray :=
  (Session.perform (.ofFunction E) Blobs.cache (get s t) ⟨blobs, 0, []⟩).1

theorem World.exists_cached (hs : s.Valid) (hroot : s.isRankRoot t.level = true)
    (hin : inLevel t = true) (E : Node → Bool) : ∃ w bytes, World.Reachable s E w ∧
      w.blobs t.node = some bytes ∧ fresh s E t = .ok bytes := by
  obtain ⟨bytes, hanswer, hget⟩ := exists_isAnswer (E := E) hs Blobs.keeps hroot hin
    ⟨fun _ => none, 0, []⟩ (Blobs.all_of_empty fun _ => rfl)
  have hreachable : World.Reachable s E _ := World.Reachable.perform
    (Oracle.follows_ofFunction E True) Blobs.keeps .refl ⟨fun _ => none, 0, []⟩ rfl t
  exact ⟨_, bytes, hreachable, cached_of_get hroot hin (Prod.ext hget rfl), hanswer.fresh_eq hs⟩

theorem IsBlob.of_levels_eq (hmin : s₁.minLevel = s₂.minLevel) (hmax : s₁.maxLevel = s₂.maxLevel)
    (hlevels : s₁.subtreeLevels = s₂.subtreeLevels) {n : Node} {blob : ByteArray}
    (h : IsBlob s₁ E n blob) : IsBlob s₂ E n blob := by
  obtain ⟨minLevel, maxLevel, subtreeLevels, reload⟩ := s₁
  obtain ⟨_, _, _, reload'⟩ := s₂
  obtain rfl : minLevel = _ := hmin
  obtain rfl : maxLevel = _ := hmax
  obtain rfl : subtreeLevels = _ := hlevels
  obtain ⟨level, index, sub, hn, hi, hroot, hsub, hblob⟩ := h
  exact ⟨level, index, sub, hn, hi, hroot, ⟨hsub.levels_eq, hsub.tile, hsub.child,
    hsub.content_deepest, hsub.content_above⟩, hblob⟩

section

variable {σ : Type} {cache : BlobCache (StateM σ)} {blobs : σ → Blobs}

/-- A request that is refused is refused over any cache; any other is answered as in a new store if it
gets the bytes of its subtree. -/
theorem perform_get_eq_fresh (hs : s.Valid) {session : Session σ}
    (h : s.isRankRoot t.level = true → inLevel t = true → ∃ bytes, IsAnswer s E t bytes ∧
      (Session.perform (.ofFunction E) cache (get s t) session).1 = .ok bytes) :
    (Session.perform (.ofFunction E) cache (get s t) session).1 = fresh s E t := by
  rcases get_cases s t with ⟨-, e, hthrow⟩ | ⟨hroot, hin⟩
  · unfold fresh
    rw [perform_throw _ _ _ hthrow, perform_throw _ _ _ hthrow]
  · obtain ⟨bytes, hanswer, hget⟩ := h hroot hin
    exact hget.trans (hanswer.fresh_eq hs).symm

/-- **The cache of another schedule.** Over a cache that a store of schedule `s₁` left, a store of
schedule `s₂` gives the cached blob of a rank root as it stands, and that is what a new store of `s₁`
gives. A request that does not notice the cache, or for which the store builds anew, is answered as in
a new store of `s₂`. All requests are answered so, for every oracle and every such cache, exactly if
`s₂` asks to build anew or both schedules cut the same levels into the same ranks. -/
theorem get_over_reused (hs₁ : s₁.Valid) (hs₂ : s₂.Valid) (h₁ : s₁.minLevel = 0)
    (h₂ : s₂.minLevel = 0) (hcache : cache.Keeps blobs) :
    (∀ E w, World.Reachable s₁ E w → ∀ session : Session σ, blobs session.cache = w.blobs → ∀ t,
      (s₂.reload = false → s₂.isRankRoot t.level = true → t.x.toNat < 2 ^ t.level →
        t.y.toNat < 2 ^ t.level → ∀ blob, w.blobs t.node = some blob →
          (Session.perform (.ofFunction E) cache (get s₂ t) session).1 = .ok blob ∧
            fresh s₁ E t = .ok blob) ∧
      ((s₂.reload = false → Unnoticed s₁ s₂ E w.blobs t) →
        (Session.perform (.ofFunction E) cache (get s₂ t) session).1 = fresh s₂ E t)) ∧
    ((∀ E w, World.Reachable s₁ E w → ∀ t, answerOver s₂ E w.blobs t = fresh s₂ E t) ↔
      s₂.reload = true ∨
        s₁.maxLevel = s₂.maxLevel ∧ s₁.subtreeLevels = s₂.subtreeLevels) := by
  refine ⟨fun E w hw session hsession t => ⟨?_, fun hunnoticed => ?_⟩, fun hall => ?_, ?_⟩
  · intro hreload hroot hx hy blob hblob
    have hin := inLevel_eq_true_iff.2 ⟨hx, hy⟩
    refine ⟨perform_get_of_cached hcache _ hreload hroot hin (hsession ▸ hblob), ?_⟩
    obtain ⟨-, -, hanswer⟩ := ((hw.sound hs₁).blobs _ blob hblob).isAnswer hs₁
    rw [t.tile_node hin] at hanswer
    exact hanswer.fresh_eq hs₁
  · rw [← hsession] at hunnoticed
    exact perform_get_eq_fresh hs₂ fun hroot hin => exists_isAnswer_reused hs₁ hs₂ hcache hroot hin
      (hsession ▸ (hw.sound hs₁).blobs) hunnoticed
  · by_contra hnot
    obtain ⟨hreload, hlevels⟩ := not_or.1 hnot
    obtain ⟨E, hne⟩ := exists_fresh_ne hs₁ hs₂ h₁ h₂ hlevels
    obtain ⟨w, bytes, hw, hblob, hfresh⟩ :=
      World.exists_cached (t := ⟨0, 0, 0⟩) hs₁ (isRankRoot_root h₁) rfl E
    have hget : answerOver s₂ E w.blobs ⟨0, 0, 0⟩ = .ok bytes := perform_get_of_cached Blobs.keeps _
      (Bool.eq_false_of_not_eq_true hreload) (isRankRoot_root h₂) rfl hblob
    exact hne (hfresh.trans (hget.symm.trans (hall E w hw ⟨0, 0, 0⟩)))
  · rintro (hreload | ⟨hmax, hlevels⟩) E w hw t
    · exact perform_get_eq_fresh hs₂ fun hroot hin => exists_isAnswer_reused hs₁ hs₂ Blobs.keeps hroot
        hin (hw.sound hs₁).blobs fun h => nomatch h.symm.trans hreload
    · refine perform_get_eq_fresh hs₂ fun hroot hin => exists_isAnswer hs₂ Blobs.keeps hroot hin _ ?_
      intro n blob hblob
      exact ((hw.sound hs₁).blobs n blob hblob).of_levels_eq (h₁.trans h₂.symm) hmax hlevels

end

/-- One level, and then two ranks of one level. The root was cached and is given as it stood; a tile
of the second level was not. -/
theorem get_over_reused_second_level : ∃ (w : World) (blob : ByteArray),
    World.Reachable ⟨0, 0, 1, false⟩ (fun _ => true) w ∧ w.blobs ⟨0, 0⟩ = some blob ∧
      answerOver ⟨0, 1, 1, false⟩ (fun _ => true) w.blobs ⟨0, 0, 0⟩ = .ok blob ∧
      fresh ⟨0, 0, 1, false⟩ (fun _ => true) ⟨0, 0, 0⟩ = .ok blob ∧
      answerOver ⟨0, 1, 1, false⟩ (fun _ => true) w.blobs ⟨1, 1, 0⟩ =
        fresh ⟨0, 1, 1, false⟩ (fun _ => true) ⟨1, 1, 0⟩ := by
  have hs₁ : Schedule.Valid ⟨0, 0, 1, false⟩ := (Schedule.validate_eq_ok_iff _).1 rfl
  have hs₂ : Schedule.Valid ⟨0, 1, 1, false⟩ := (Schedule.validate_eq_ok_iff _).1 rfl
  obtain ⟨w, blob, hw, hblob, -⟩ :=
    World.exists_cached (t := ⟨0, 0, 0⟩) hs₁ rfl rfl fun _ => true
  obtain ⟨hreused, -⟩ := get_over_reused hs₁ hs₂ rfl rfl Blobs.keeps
  have hreused := hreused _ w hw ⟨w.blobs, 0, []⟩ rfl
  obtain ⟨hget, hfresh⟩ := (hreused ⟨0, 0, 0⟩).1 rfl rfl Nat.one_pos Nat.one_pos blob hblob
  refine ⟨w, blob, hw, hblob, hget, hfresh, (hreused ⟨1, 1, 0⟩).2 fun _ => ⟨?_, ?_⟩⟩
  · -- nothing but the root is a rank root of one level
    cases h : w.blobs (Tile.node ⟨1, 1, 0⟩) with
    | none => rfl
    | some blob' => cases (((hw.sound hs₁).blobs _ blob' h).isAnswer hs₁).1
  · rintro n blob' - hroot ⟨hlt, -⟩
    exact absurd (hs₂.le_maxRankRoot hroot) (Nat.not_le_of_lt hlt)

/-- The topmost rank of one level was cached where everything exists. With a second rank below it, a
new store would point to four child subtrees. -/
theorem reused_root_without_children : ∃ w : World,
    Schedule.Valid ⟨0, 0, 1, false⟩ ∧ Schedule.Valid ⟨0, 1, 1, false⟩ ∧
      World.Reachable ⟨0, 0, 1, false⟩ (fun _ => true) w ∧
      answerOver ⟨0, 1, 1, false⟩ (fun _ => true) w.blobs ⟨0, 0, 0⟩ ≠
        fresh ⟨0, 1, 1, false⟩ (fun _ => true) ⟨0, 0, 0⟩ := by
  have hs₁ : Schedule.Valid ⟨0, 0, 1, false⟩ := (Schedule.validate_eq_ok_iff _).1 rfl
  have hs₂ : Schedule.Valid ⟨0, 1, 1, false⟩ := (Schedule.validate_eq_ok_iff _).1 rfl
  obtain ⟨w, blob, hw, hblob, hfresh⟩ :=
    World.exists_cached (t := ⟨0, 0, 0⟩) hs₁ rfl rfl fun _ => true
  refine ⟨w, hs₁, hs₂, hw, fun h => ?_⟩
  have hget : answerOver ⟨0, 1, 1, false⟩ (fun _ => true) w.blobs ⟨0, 0, 0⟩ = .ok blob :=
    perform_get_of_cached Blobs.keeps _ rfl rfl rfl hblob
  obtain ⟨sub₁, sub₂, hsub₁, hsub₂, huniform⟩ :=
    exists_isBuilt_of_fresh_eq hs₁ hs₂ rfl rfl (hfresh.trans (hget.symm.trans h))
  have hchildren := (huniform false).2
  rw [Availability.uniform_children_iff sub₁.children_topology,
    Availability.uniform_children_iff sub₂.children_topology, sub₁.children_length,
    sub₂.children_length, hsub₁.levels_eq, hsub₂.levels_eq] at hchildren
  have hnone := hchildren.1 fun c hc => Bool.eq_false_of_not_eq_true fun hset =>
    absurd ((hsub₁.child c hc).1 hset).1 (by decide)
  have hset := (hsub₂.child 0 (by decide)).2 (by decide)
  rw [hnone 0 (by decide)] at hset
  cases hset

end Store

end ImplicitTiling
