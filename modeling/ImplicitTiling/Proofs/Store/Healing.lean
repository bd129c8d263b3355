import ImplicitTiling.Proofs.Store.History
import ImplicitTiling.Proofs.Store.Traversal

/-!
# Corrupt blobs heal

Bytes that do not decode are worth as much as none: the store builds the rank root and puts its
bytes in their place. So where every blob that decodes is as a new store would have it, a request is
answered as by a new store, however corrupt, missing and good blobs are mixed. It leaves the blobs
it could use as they are, replaces those it could not, and touches nothing that it does not come to:
`get_heals`.
-/

namespace ImplicitTiling.Store

variable {σ : Type} {s : Schedule} {E : Node → Bool} {cache : BlobCache (StateM σ)}
  {blobs : σ → Blobs} {ample : σ → Prop} {before : Blobs} {t : Tile} {n : Node}

/-- Under the rank roots the blobs fail to decode or decode to the subtrees of a new store. -/
def Harmless (s : Schedule) (E : Node → Bool) (blobs : Blobs) : Prop :=
  ∀ n blob sub, s.isRankRoot n.level = true → n.index.toNat < 4 ^ n.level → blobs n = some blob →
    Subtree.decode blob s.subtreeLevels = .ok sub → sub = freshSubtree s E n.tile

/-- The bytes were there before, or they are those of the subtree of a rank root. -/
def OldOrRight (s : Schedule) (E : Node → Bool) (before : Blobs) (n : Node) (blob : ByteArray) :
    Prop :=
  IsBlob s E n blob ∨ before n = some blob

theorem Harmless.reads (hs : s.Valid) (h : Harmless s E before) {level index : Nat}
    (hroot : s.isRankRoot level = true) (hi : index < 4 ^ level) {blob : ByteArray}
    (hblob : before (.ofNat level index) = some blob) : Reads s E level index blob := by
  intro sub hsub
  have hlt := Node.index_ofNat_lt (hs.level_lt hroot).le hi
  have hbuilt := (isBuilt_freshSubtree (E := E) (t := (Node.ofNat level index).tile) hs hroot
    (Node.inLevel_tile _)).hasRoot hs
  rw [Node.toNat_morton_tile (hs.level_lt hroot).le hi] at hbuilt
  rw [h _ blob sub hroot hlt hblob hsub]
  exact hbuilt

/-- **The request is answered as by a new store,** and no blob is put that is not right. -/
theorem get_of_harmless (hs : s.Valid) (hcache : cache.Keeps blobs)
    (hroot : s.isRankRoot t.level = true) (hin : inLevel t = true) {session after : Session σ}
    {bytes : ByteArray} (hown : blobs session.cache t.node = none)
    (hharmless : Harmless s E (blobs session.cache))
    (h : Session.perform (.ofFunction E) cache (get s t) session = (.ok bytes, after)) :
    IsAnswer s E t bytes ∧ (blobs after.cache).All (OldOrRight s E (blobs session.cache)) := by
  -- Blobs that were there before are good as well: they are not given as an answer, and what is read
  -- of them further down is right.
  have hmeets : Build.Meets (contractOver s E (OldOrRight s E (blobs session.cache)) False) False
      (IsAnswer s E t) (get s t) := by
    refine meets_get_over hs (fun hrefused => hrefused ⟨hroot, hin⟩) ?_ ?_
    · rintro - blob (hblob | hblob)
      · exact hblob
      · cases hown.symm.trans hblob
    · rintro level index - hlevel hi - - blob (hblob | hblob)
      · exact hblob.reads hs (hs.level_lt hlevel).le hi
      · exact hharmless.reads hs hlevel hi hblob
  have hrun := Routine.Meets.run
    (answer_keeps_over (fun _ _ => .inl) (Oracle.follows_ofFunction E False) hcache) hmeets
    (s := session) fun _ _ => .inr
  change Outcome False (IsAnswer s E t)
      (Session.perform (.ofFunction E) cache (get s t) session).1 ∧
    (blobs (Session.perform (.ofFunction E) cache (get s t) session).2.cache).All _ at hrun
  rw [h] at hrun
  exact hrun

theorem exists_blob_of_served (h : served s before n = true) : ∃ blob, before n = some blob := by
  cases hblob : before n with
  | none => exact absurd h (Bool.eq_false_iff.1 (not_served_of_none hblob))
  | some blob => exact ⟨blob, rfl⟩

theorem exists_fresh_of_served (hs : s.Valid) {after : Blobs}
    (hall : after.All (OldOrRight s E before)) (hbefore : served s before n = false)
    (hafter : served s after n = true) :
    ∃ blob, fresh s E n.tile = .ok blob ∧ after n = some blob := by
  obtain ⟨blob, hblob⟩ := exists_blob_of_served hafter
  rcases hall n blob hblob with hright | hold
  · exact ⟨blob, (hright.isAnswer hs).2.2.fresh_eq hs, hblob⟩
  · rw [served_congr (hblob.trans hold.symm), hbefore] at hafter
    cases hafter

/-- **A corrupt blob heals, and nothing else is touched.** Over a cache that drops nothing, where
the rank root that is requested is not cached and every blob of a rank root that decodes is as a new
store would have it, the request is answered as by a new store. Afterwards the cache holds the
answer; of the rank roots that the way down leads to it holds the blobs that decoded as they were
and those of a new store in place of the others; and every other key is unchanged. -/
theorem get_heals (hs : s.Valid) (hreload : s.reload = false) (E : Node → Bool)
    (hcache : cache.Lossless blobs ample) (hroot : s.isRankRoot t.level = true)
    (hx : t.x.toNat < 2 ^ t.level) (hy : t.y.toNat < 2 ^ t.level) (session : Session σ)
    (hample : ample session.cache) (hown : blobs session.cache t.node = none)
    (hharmless : Harmless s E (blobs session.cache)) :
    ∃ bytes after,
      Session.perform (.ofFunction E) cache (get s t) session = (.ok bytes, after) ∧
      fresh s E t = .ok bytes ∧ blobs after.cache t.node = some bytes ∧
      (∀ n, Resolves s E (served s (blobs session.cache)) t.level t.morton.toNat n →
        if served s (blobs session.cache) n then
          blobs after.cache n = blobs session.cache n
        else ∃ blob, fresh s E n.tile = .ok blob ∧ blobs after.cache n = some blob) ∧
      ∀ n, n ≠ t.node →
        ¬ Resolves s E (served s (blobs session.cache)) t.level t.morton.toNat n →
        blobs after.cache n = blobs session.cache n := by
  have hin : inLevel t = true := inLevel_eq_true_iff.2 ⟨hx, hy⟩
  have hagrees : Agrees s (served s (blobs session.cache)) t.level t.morton.toNat
      (blobs session.cache) := fun _ _ _ => rfl
  obtain ⟨bytes, after, hperform, -, -, hkey, hsaves⟩ :=
    (does_get (E := E) hs hreload hroot hin hown hagrees).perform hcache hample
  obtain ⟨hanswer, hall⟩ := get_of_harmless hs hcache.toKeeps hroot hin hown hharmless hperform
  have hsaved {n : Node} : n ∈ rebuilt s E (served s (blobs session.cache)) t.node ++ [t.node] ↔
      (Resolves s E (served s (blobs session.cache)) t.level t.morton.toNat n ∧
        served s (blobs session.cache) n = false) ∨ n = t.node := by
    rw [List.mem_append, mem_rebuilt_iff hs hroot, List.mem_singleton]
  refine ⟨bytes, after, hperform, hanswer.fresh_eq hs, hkey, ?_, ?_⟩
  · intro n hresolves
    split
    · next hserved =>
      refine hsaves.kept n fun hmem => ?_
      rcases hsaved.1 hmem with ⟨-, hnot⟩ | rfl
      · rw [hserved] at hnot
        cases hnot
      · exact Nat.lt_irrefl _ hresolves.level_lt
    · next hserved =>
      have hnot := Bool.eq_false_of_not_eq_true hserved
      exact exists_fresh_of_served hs hall hnot
        (hsaves.served n (hsaved.2 (.inl ⟨hresolves, hnot⟩)))
  · intro n hn hresolves
    refine hsaves.kept n fun hmem => ?_
    rcases hsaved.1 hmem with ⟨h, -⟩ | h
    · exact hresolves h
    · exact hn h

/-- Four rank roots below the one that is requested. The first one is cached with three bytes, the
second one as it should be. -/
theorem get_heals_three_bytes : ∃ (before : Blobs) (bytes first : ByteArray)
    (after : Session Blobs), before ⟨1, 0⟩ = some ⟨#[1, 2, 3]⟩ ∧
      Session.perform (.ofFunction fun _ => true) Blobs.cache (get ⟨0, 1, 1, false⟩ ⟨0, 0, 0⟩)
        ⟨before, 0, []⟩ = (.ok bytes, after) ∧
      fresh ⟨0, 1, 1, false⟩ (fun _ => true) ⟨0, 0, 0⟩ = .ok bytes ∧
      after.cache ⟨0, 0⟩ = some bytes ∧
      fresh ⟨0, 1, 1, false⟩ (fun _ => true) ⟨1, 0, 0⟩ = .ok first ∧
      after.cache ⟨1, 0⟩ = some first ∧
      after.cache ⟨1, 1⟩ = some (freshBytes ⟨0, 1, 1, false⟩ (fun _ => true) ⟨1, 1, 0⟩) ∧
      after.cache ⟨2, 0⟩ = none := by
  let s : Schedule := ⟨0, 1, 1, false⟩
  let E : Node → Bool := fun _ => true
  let before : Blobs := fun n =>
    if n = ⟨1, 0⟩ then some ⟨#[1, 2, 3]⟩
    else if n = ⟨1, 1⟩ then some (freshBytes s E ⟨1, 1, 0⟩) else none
  have hs : s.Valid := (Schedule.validate_eq_ok_iff ⟨0, 1, 1, false⟩).1 rfl
  have hcorrupt : (Subtree.decode ⟨#[1, 2, 3]⟩ 1).isOk = false := by decide +kernel
  have hright : Subtree.decode (freshBytes s E ⟨1, 1, 0⟩) 1 = .ok (freshSubtree s E ⟨1, 1, 0⟩) :=
    (isAnswer_freshBytes hs (by decide) (by decide)).decode_eq hs
  have hharmless : Harmless s E before := by
    intro n blob sub _ _ hblob hsub
    dsimp only [before] at hblob
    split at hblob
    · cases hblob
      rw [show Subtree.decode ⟨#[1, 2, 3]⟩ 1 = .ok sub from hsub] at hcorrupt
      cases hcorrupt
    · split at hblob
      · next hn =>
        cases hblob
        rw [hn]
        exact (Except.ok.inj (hright.symm.trans hsub)).symm
      · cases hblob
  obtain ⟨bytes, after, hperform, hfresh, hkey, hresolved, hkept⟩ :=
    get_heals (t := ⟨0, 0, 0⟩) hs rfl E Blobs.lossless rfl Nat.one_pos Nat.one_pos ⟨before, 0, []⟩
      trivial rfl hharmless
  have hchild (q : Nat) (hq : q < 4) :
      Resolves s E (served s before) 0 0 (.ofNat 1 (4 * 0 + q)) :=
    .of_child (by decide) (by decide) hq rfl (by decide)
  have hfirst := hresolved ⟨1, 0⟩ (hchild 0 (by decide))
  have hsecond := hresolved ⟨1, 1⟩ (hchild 1 (by decide))
  have hnot : served s before ⟨1, 0⟩ = false := hcorrupt
  have hserved : served s before ⟨1, 1⟩ = true := served_of_decode rfl hright
  rw [if_neg (by rw [hnot]; decide)] at hfirst
  rw [if_pos hserved] at hsecond
  obtain ⟨first, hfirst, hhealed⟩ := hfirst
  refine ⟨before, bytes, first, after, rfl, hperform, hfresh, hkey, hfirst, hhealed, hsecond, ?_⟩
  exact hkept ⟨2, 0⟩ (by decide) fun h => absurd h.root (by decide)

end ImplicitTiling.Store
