import ImplicitTiling.Proofs.Generator.Frontier
import ImplicitTiling.Proofs.Generator.Requests

/-!
# What a walk writes

A walk goes from rank to rank and ends for want of rank roots (`walk_add`). Unless a file operation
fails, a walk that begins with the wanted roots of one rank writes the subtrees of the wanted rank
roots from there on down, each of them once (`delivers_walk`).
-/

namespace ImplicitTiling.Generator

open Store Recorded

variable {σ : Type} {s : Schedule} {top : Path} {view : σ → Files} {host : Host (StateM σ)}
  {index : Footprints} {m : Recorded σ}

/-! ## The bound on the waves -/

section

variable {output : Path}

theorem level_of_mem_childRoots {t u : Tile} {sub : Subtree} (h : u ∈ childRoots s t sub) :
    u.level = t.level + s.subtreeLevels ∧ s.isRankRoot u.level = true := by
  unfold childRoots at h
  split at h
  · next hroot =>
    obtain ⟨i, -, rfl⟩ := List.mem_map.1 h
    exact ⟨rfl, hroot⟩
  · exact absurd h List.not_mem_nil

theorem level_of_visit {t : Tile} {bytes : Nat} {below : List Tile} {c c' : σ}
    (h : (visit host s index output t).run.run c = (.ok (bytes, below), c')) :
    ∀ u ∈ below, u.level = t.level + s.subtreeLevels ∧ s.isRankRoot u.level = true := by
  unfold visit at h
  obtain ⟨blob, c₁, -, h⟩ := exists_of_bind_ok h
  obtain ⟨sub, c₂, -, h⟩ := exists_of_bind_ok h
  obtain ⟨-, c₃, -, h⟩ := exists_of_bind_ok h
  obtain ⟨-, c₄, -, h⟩ := exists_of_bind_ok h
  obtain rfl : childRoots s t sub = below :=
    congrArg Prod.snd (Except.ok.inj (congrArg Prod.fst h))
  exact fun u => level_of_mem_childRoots

theorem level_of_visitAll {wave below : List Tile} {level bytes : Nat}
    (hwave : ∀ t ∈ wave, t.level = level) {c c' : σ}
    (h : (visitAll host s index output wave).run.run c = (.ok (bytes, below), c')) :
    ∀ u ∈ below, u.level = level + s.subtreeLevels ∧ s.isRankRoot u.level = true := by
  induction wave generalizing below bytes c c' with
  | nil =>
    obtain rfl : [] = below := congrArg Prod.snd (Except.ok.inj (congrArg Prod.fst h))
    exact List.forall_mem_nil _
  | cons t rest ih =>
    rw [List.forall_mem_cons] at hwave
    obtain ⟨⟨size, roots⟩, c₁, hvisit, h⟩ := exists_of_bind_ok h
    obtain ⟨⟨restBytes, restBelow⟩, c₂, hrest, h⟩ := exists_of_bind_ok h
    obtain rfl : roots ++ restBelow = below :=
      congrArg Prod.snd (Except.ok.inj (congrArg Prod.fst h))
    intro u hu
    rcases List.mem_append.1 hu with hu | hu
    · rw [← hwave.1]
      exact level_of_visit hvisit u hu
    · exact ih hwave.2 hrest u hu

/-- A walk ends for want of rank roots and not because it may take no more waves: any number of them
beyond the ranks that there are comes to the same. -/
theorem walk_add {wave : List Tile} {level ranks : Nat} (more : Nat) (done : Tally)
    (hwave : ∀ t ∈ wave, t.level = level ∧ s.isRankRoot t.level = true)
    (hranks : s.maxRankRoot < level + ranks * s.subtreeLevels) :
    walk host s index output (ranks + more) wave done =
      walk host s index output ranks wave done := by
  induction ranks generalizing level wave done with
  | zero =>
    obtain rfl : wave = [] := by
      refine List.eq_nil_iff_forall_not_mem.2 fun t ht => ?_
      obtain ⟨hlevel, hroot⟩ := hwave t ht
      simp [Schedule.isRankRoot] at hroot
      omega
    cases more <;> rfl
  | succ ranks ih =>
    rw [Nat.succ_add]
    cases wave with
    | nil => rfl
    | cons t rest =>
      unfold walk
      refine bind_congr_of_ok fun _ _ _ _ => ?_
      refine bind_congr_of_ok fun c result c' hresult => ?_
      rw [Nat.succ_mul] at hranks
      exact ih _ (level_of_visitAll (fun u hu => (hwave u hu).1) hresult) (by omega)

end

/-! ## The subtrees that a walk writes -/

/-- The visit of a rank root writes its subtree. -/
theorem delivers_visit (hhost : host.Lawful top view) (hs : s.Valid)
    (hsound : CacheSound s (touched index) (view m.state)) {t : Tile}
    (hroot : s.isRankRoot t.level = true) (hin : inLevel t = true) :
    Delivers s (touched index) top view (visit host.recorded s index top t) m [t]
      (fun result _ => result = ((freshBytes s (touched index) t).size,
        childRoots s t (freshSubtree s (touched index) t))) := by
  have hdirectory : ∀ name ∈ ["subtrees"], Path.IsName name :=
    List.forall_mem_singleton.2 (Path.isName_iff.2 (by decide))
  unfold visit
  refine (delivers_request hhost hs hsound hroot hin).bind fun bytes m₁ hsound₁ hanswer => ?_
  have hdecode : (.mk (pure (Subtree.decode bytes s.subtreeLevels)) :
      ExceptT Error (StateM (Recorded σ)) Subtree) = pure (freshSubtree s (touched index) t) := by
    rw [hanswer.decode_eq hs]
    rfl
  rw [hdecode, pure_bind, hanswer.eq_freshBytes hs]
  simp only [parent_subtreePath, Path.child_eq_under]
  refine ((delivers_makeDirectories hhost.files hdirectory hsound₁).adapt _).bind
    fun _ m₂ hsound₂ _ => ?_
  refine ((delivers_writeSubtree hhost.files hsound₂ t).adapt _).bind fun _ m₃ hsound₃ _ => ?_
  exact .pure hsound₃ rfl

/-- The bytes of the subtrees of some tiles together. -/
def totalBytes (s : Schedule) (E : Node → Bool) (tiles : List Tile) : Nat :=
  (tiles.map fun t => (freshBytes s E t).size).sum

theorem totalBytes_append (s : Schedule) (E : Node → Bool) (tiles tiles' : List Tile) :
    totalBytes s E (tiles ++ tiles') = totalBytes s E tiles + totalBytes s E tiles' := by
  unfold totalBytes
  rw [List.map_append, List.sum_append]

theorem delivers_visitAll (hhost : host.Lawful top view) (hs : s.Valid) {wave : List Tile}
    (hwave : ∀ t ∈ wave, s.isRankRoot t.level = true ∧ inLevel t = true)
    (hsound : CacheSound s (touched index) (view m.state)) :
    Delivers s (touched index) top view (visitAll host.recorded s index top wave) m wave
      (fun result _ => result = (totalBytes s (touched index) wave,
        wave.flatMap fun t => childRoots s t (freshSubtree s (touched index) t))) := by
  induction wave generalizing m with
  | nil => exact .pure hsound rfl
  | cons t rest ih =>
    rw [List.forall_mem_cons] at hwave
    show Delivers s (touched index) top view _ m ([t] ++ rest) _
    refine (delivers_visit hhost hs hsound hwave.1.1 hwave.1.2).bind fun result m₁ hsound₁ h => ?_
    subst h
    refine (ih hwave.2 hsound₁).bind_last fun result m₂ hsound₂ h => ?_
    subst h
    exact .pure hsound₂ rfl

theorem view_visitAll_perm (hhost : host.Lawful top view) (hs : s.Valid) {wave wave' : List Tile}
    (hwave : ∀ t ∈ wave, s.isRankRoot t.level = true ∧ inLevel t = true)
    (hperm : wave.Perm wave') (hsound : CacheSound s (touched index) (view m.state))
    (hsmooth : Smooth ((visitAll host.recorded s index top wave).run.run m).2)
    (hsmooth' : Smooth ((visitAll host.recorded s index top wave').run.run m).2) (t : Tile) :
    view ((visitAll host.recorded s index top wave).run.run m).2.state (subtreeNames t) =
      view ((visitAll host.recorded s index top wave').run.run m).2.state (subtreeNames t) := by
  have hwave' (t : Tile) (ht : t ∈ wave') := hwave t (hperm.mem_iff.2 ht)
  obtain ⟨-, -, hwrote, -⟩ := (delivers_visitAll hhost hs hwave hsound).exists_ok hsmooth
  obtain ⟨-, -, hwrote', -⟩ := (delivers_visitAll hhost hs hwave' hsound).exists_ok hsmooth'
  by_cases ht : t ∈ wave
  · rw [hwrote.written t ht, hwrote'.written t (hperm.mem_iff.1 ht)]
  · rw [hwrote.others t ht, hwrote'.others t (mt hperm.mem_iff.2 ht)]

/-- **A walk from the wanted roots of one rank on.** It writes the subtrees of the wanted rank roots
from there on and counts them. -/
theorem delivers_walk (hhost : host.Lawful top view) (hs : s.Valid) (hmin : s.minLevel = 0)
    {k ranks : Nat} (hranks : k + ranks = s.rankCount) {wave : List Tile}
    (hwave : IsWave s (touched index) k wave) :
    ∃ visited waves, IsWalk s (touched index) k visited waves ∧
      ∀ (m : Recorded σ) (done : Tally), CacheSound s (touched index) (view m.state) →
        Delivers s (touched index) top view
          (walk host.recorded s index top ranks wave done) m visited
          (fun result _ => result = ⟨done.subtrees + visited.length,
            done.bytes + totalBytes s (touched index) visited, done.waves + waves⟩) := by
  induction ranks generalizing k wave with
  | zero =>
    obtain rfl : k = s.rankCount := hranks
    exact ⟨[], 0, isWalk_rankCount hs hmin _, fun m done hsound => .pure hsound rfl⟩
  | succ ranks ih =>
    cases wave with
    | nil => exact ⟨[], 0, hwave.isWalk_nil hs hmin, fun m done hsound => .pure hsound rfl⟩
    | cons t rest =>
      have hroots (u : Tile) (hu : u ∈ t :: rest) :=
        ((hwave.mem_iff u).1 hu).1.isRankRoot hmin
      obtain ⟨visited, waves, hwalk, hrest⟩ := ih (by omega) (hwave.next hs hmin)
      refine ⟨t :: rest ++ visited, waves + 1, hwave.isWalk hs hmin (List.cons_ne_nil t rest) hwalk,
        fun m done hsound => ?_⟩
      show Delivers s (touched index) top view _ m ([] ++ (t :: rest ++ visited)) _
      refine Delivers.bind (.unrecorded (hhost.view_print _) hsound) fun _ m₁ hsound₁ _ => ?_
      refine (delivers_visitAll hhost hs hroots hsound₁).bind fun result m₂ hsound₂ h => ?_
      subst h
      refine (hrest m₂ _ hsound₂).mono fun result m₃ h => ?_
      rw [h, totalBytes_append, List.length_append, ← Nat.add_assoc, ← Nat.add_assoc,
        Nat.add_assoc done.waves, Nat.add_comm 1]

end ImplicitTiling.Generator
