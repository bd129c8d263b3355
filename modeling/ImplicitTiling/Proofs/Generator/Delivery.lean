import ImplicitTiling.Proofs.Files.Recording
import ImplicitTiling.Proofs.Generator.Layout
import ImplicitTiling.Proofs.Store.History

/-!
# What the steps of a generator deliver

`Delivers` says of a part of a run which subtrees it writes. It does so, and does not fail, unless a
file operation failed; and however it ends, the files of the cache hold the right blobs.
-/

namespace ImplicitTiling.Generator

open Store Recorded

/-- Every file of a blob holds the blob of its rank root. -/
def CacheSound (s : Schedule) (E : Node → Bool) (files : Files) : Prop :=
  ∀ n bytes, files (blobNames n) = some bytes →
    ∃ blob, bytes = Blob.compress blob ∧ IsBlob s E n blob

variable {σ ε α β : Type}

/-- From one state to another nothing happened to the files of subtrees. -/
structure Aside (top : Path) (view : σ → Files) (m m' : Recorded σ) : Prop where
  smooth : Smooth m' → Smooth m
  writes : m'.writesIn (top.child "subtrees") = m.writesIn (top.child "subtrees")
  view_eq : ∀ t, view m'.state (subtreeNames t) = view m.state (subtreeNames t)

/-- From one state to another the subtrees of the listed tiles were written, in this order. -/
structure Wrote (s : Schedule) (E : Node → Bool) (top : Path) (view : σ → Files)
    (tiles : List Tile) (m m' : Recorded σ) : Prop where
  writes : m'.writesIn (top.child "subtrees") = m.writesIn (top.child "subtrees") ++
    tiles.map fun t => (subtreePath top t, freshBytes s E t)
  written : ∀ t ∈ tiles, view m'.state (subtreeNames t) = some (freshBytes s E t)
  others : ∀ t ∉ tiles, view m'.state (subtreeNames t) = view m.state (subtreeNames t)

/-- Run from `m` on, the operation leaves the cache sound. Unless a file operation fails, it writes
the subtrees of the listed tiles and ends with a value that satisfies `post`. -/
structure Delivers (s : Schedule) (E : Node → Bool) (top : Path) (view : σ → Files)
    (operation : ExceptT ε (StateM (Recorded σ)) α) (m : Recorded σ) (tiles : List Tile)
    (post : α → Recorded σ → Prop) : Prop where
  sound : CacheSound s E (view (operation.run.run m).2.state)
  ok : ∀ a, (operation.run.run m).1 = .ok a →
    Wrote s E top view tiles m (operation.run.run m).2 ∧ post a (operation.run.run m).2
  error : ∀ e, (operation.run.run m).1 = .error e → ¬ Smooth (operation.run.run m).2

variable {s : Schedule} {E : Node → Bool} {top : Path} {view : σ → Files} {m : Recorded σ}
  {tiles tiles' : List Tile}

/-! ## Composition -/

theorem Aside.refl (m : Recorded σ) : Aside top view m m where
  smooth := id
  writes := rfl
  view_eq _ := rfl

theorem Aside.trans (m m' m'' : Recorded σ) (h : Aside top view m m')
    (h' : Aside top view m' m'') : Aside top view m m'' where
  smooth hend := h.smooth (h'.smooth hend)
  writes := h'.writes.trans h.writes
  view_eq t := (h'.view_eq t).trans (h.view_eq t)

theorem Aside.wrote {m' : Recorded σ} (h : Aside top view m m') :
    Wrote s E top view [] m m' where
  writes := by rw [h.writes, List.map_nil, List.append_nil]
  written _ h := nomatch h
  others t _ := h.view_eq t

theorem Wrote.trans {m' m'' : Recorded σ} (h : Wrote s E top view tiles m m')
    (h' : Wrote s E top view tiles' m' m'') : Wrote s E top view (tiles ++ tiles') m m'' where
  writes := by
    rw [h'.writes, h.writes, List.map_append, List.append_assoc]
  written t ht := by
    by_cases ht' : t ∈ tiles'
    · exact h'.written t ht'
    · rw [h'.others t ht']
      exact h.written t ((List.mem_append.1 ht).resolve_right ht')
  others t ht := by
    rw [List.mem_append, not_or] at ht
    rw [h'.others t ht.2, h.others t ht.1]

theorem Delivers.pure {post : α → Recorded σ → Prop} (hsound : CacheSound s E (view m.state))
    {a : α} (h : post a m) :
    Delivers s E top view (pure a : ExceptT ε (StateM (Recorded σ)) α) m [] post where
  sound := hsound
  ok a' ha := by
    obtain rfl : a = a' := Except.ok.inj ha
    exact ⟨(Aside.refl m).wrote, h⟩
  error _ h := nomatch h

theorem Delivers.bind {operation : ExceptT ε (StateM (Recorded σ)) α}
    {next : α → ExceptT ε (StateM (Recorded σ)) β} {post : α → Recorded σ → Prop}
    {post' : β → Recorded σ → Prop} (h : Delivers s E top view operation m tiles post)
    (hnext : ∀ a m', CacheSound s E (view m'.state) → post a m' →
      Delivers s E top view (next a) m' tiles' post') :
    Delivers s E top view (operation >>= next) m (tiles ++ tiles') post' := by
  obtain ⟨hsound, hok, herror⟩ := h
  cases hr : operation.run.run m with
  | mk result m' =>
    rw [hr] at hsound hok herror
    cases result with
    | error e =>
      constructor <;> rw [run_bind_error hr]
      · exact hsound
      · exact fun _ h => nomatch h
      · exact fun _ _ => herror e rfl
    | ok a =>
      obtain ⟨hwrote, hpost⟩ := hok a rfl
      obtain ⟨hsound', hok', herror'⟩ := hnext a m' hsound hpost
      rw [← run_bind_ok hr] at hsound' hok' herror'
      exact ⟨hsound', fun b hb => ⟨hwrote.trans (hok' b hb).1, (hok' b hb).2⟩, herror'⟩

/-- What comes last may write no subtree. -/
theorem Delivers.bind_last {operation : ExceptT ε (StateM (Recorded σ)) α}
    {next : α → ExceptT ε (StateM (Recorded σ)) β} {post : α → Recorded σ → Prop}
    {post' : β → Recorded σ → Prop} (h : Delivers s E top view operation m tiles post)
    (hnext : ∀ a m', CacheSound s E (view m'.state) → post a m' →
      Delivers s E top view (next a) m' [] post') :
    Delivers s E top view (operation >>= next) m tiles post' := by
  rw [← List.append_nil tiles]
  exact h.bind hnext

theorem Delivers.mono {operation : ExceptT ε (StateM (Recorded σ)) α}
    {post post' : α → Recorded σ → Prop} (h : Delivers s E top view operation m tiles post)
    (hpost : ∀ a m', post a m' → post' a m') :
    Delivers s E top view operation m tiles post' where
  sound := h.sound
  ok a ha := ⟨(h.ok a ha).1, hpost _ _ (h.ok a ha).2⟩
  error := h.error

/-- Unless a file operation fails, the subtrees are written. -/
theorem Delivers.exists_ok {operation : ExceptT ε (StateM (Recorded σ)) α}
    {post : α → Recorded σ → Prop} (h : Delivers s E top view operation m tiles post)
    (hsmooth : Smooth (operation.run.run m).2) : ∃ a, (operation.run.run m).1 = .ok a ∧
      Wrote s E top view tiles m (operation.run.run m).2 ∧ post a (operation.run.run m).2 := by
  cases hr : (operation.run.run m).1 with
  | ok a => exact ⟨a, rfl, h.ok a hr⟩
  | error e => exact absurd hsmooth (h.error e hr)

/-! ## Single operations -/

variable {files : FileSystem (StateM σ)} {names : List String}

/-- An operation that is recorded. -/
theorem Delivers.recording {operation : ExceptT FileError (StateM σ) α}
    {deed : Except FileError α → Deed} {post : α → Recorded σ → Prop}
    (hfailed : ∀ e, (deed (.error e)).failed = true)
    (hsound : CacheSound s E (view (operation.run.run m.state).2))
    (hok : ∀ a m', (operation.run.run m.state).1 = .ok a →
      m' = ⟨(operation.run.run m.state).2, deed (.ok a) :: m.deeds⟩ →
      Wrote s E top view tiles m m' ∧ post a m') :
    Delivers s E top view (Recorded.recording operation deed) m tiles post := by
  cases hr : operation.run.run m.state with
  | mk result c =>
    have hrun : (Recorded.recording operation deed).run.run m =
        (result, ⟨c, deed result :: m.deeds⟩) := by
      rw [run_recording, hr]
    rw [hr] at hsound hok
    constructor <;> rw [hrun]
    · exact hsound
    · rintro a rfl
      exact hok a _ rfl rfl
    · rintro e rfl hend
      rw [smooth_cons, hfailed] at hend
      cases hend.1

/-- An operation that is recorded and writes no subtree goes aside. -/
theorem aside_recording {operation : ExceptT FileError (StateM σ) α}
    {deed : Except FileError α → Deed}
    (hdeed : ∀ r, (deed r).writeIn? (top.child "subtrees") = none)
    (hview : ∀ c t, view (operation.run.run c).2 (subtreeNames t) = view c (subtreeNames t)) :
    Leads (Aside top view) (Recorded.recording operation deed).run := fun m => by
  rw [run_recording]
  refine ⟨fun hend => (smooth_cons.1 hend).2, ?_, hview m.state⟩
  rw [writesIn_cons, hdeed]
  exact List.append_nil _

theorem aside_unrecorded {action : StateM σ α} (hview : ∀ c, view (action.run c).2 = view c) :
    Leads (Aside top view) (Recorded.unrecorded action) := fun m =>
  ⟨id, rfl, fun t => congrFun (hview m.state) (subtreeNames t)⟩

/-- An operation that writes no subtree. -/
theorem Delivers.recording_aside {operation : ExceptT FileError (StateM σ) α}
    {deed : Except FileError α → Deed} {post : α → Recorded σ → Prop}
    (haside : Leads (Aside top view) (Recorded.recording operation deed).run)
    (hfailed : ∀ e, (deed (.error e)).failed = true)
    (hsound : CacheSound s E (view (operation.run.run m.state).2))
    (hpost : ∀ a m', (operation.run.run m.state).1 = .ok a →
      m'.state = (operation.run.run m.state).2 → post a m') :
    Delivers s E top view (Recorded.recording operation deed) m [] post := by
  refine .recording hfailed hsound fun a m' hok hm' => ?_
  have hrun : ((Recorded.recording operation deed).run.run m).2 = m' := by
    rw [hm', ← hok]
    rfl
  exact ⟨(hrun ▸ haside m).wrote, hpost a m' hok (hm' ▸ rfl)⟩

/-- What is no file operation leaves the files as they are. -/
theorem Delivers.unrecorded {action : StateM σ α}
    (hview : ∀ c, view (action.run c).2 = view c) (hsound : CacheSound s E (view m.state)) :
    Delivers s E top view
      (liftM (Recorded.unrecorded action) : ExceptT ε (StateM (Recorded σ)) α) m []
      (fun _ m' => view m'.state = view m.state) where
  sound := by
    show CacheSound s E (view (action.run m.state).2)
    rw [hview]
    exact hsound
  ok a _ := ⟨(aside_unrecorded hview m).wrote, hview m.state⟩
  error _ h := nomatch h

/-- The same operation with its errors put in other words. -/
theorem Delivers.adapt {ε' : Type} {operation : ExceptT ε (StateM (Recorded σ)) α} (f : ε → ε')
    {post : α → Recorded σ → Prop} (h : Delivers s E top view operation m tiles post) :
    Delivers s E top view (operation.adapt f) m tiles post := by
  obtain ⟨hsound, hok, herror⟩ := h
  cases hr : operation.run.run m with
  | mk result m' =>
    have hrun : (operation.adapt f).run.run m = (result.mapError f, m') := by
      show (((operation.run.run m).1.mapError f, (operation.run.run m).2) : _ × _) = _
      rw [hr]
    rw [hr] at hsound hok herror
    constructor <;> rw [hrun]
    · exact hsound
    · intro a ha
      cases result with
      | ok a' => exact hok a (congrArg Except.ok (Except.ok.inj ha))
      | error e => cases ha
    · intro e' he
      cases result with
      | ok a => cases he
      | error e => exact herror e rfl

theorem blobNames_ne_subtreeNames (n : Node) (t : Tile) : blobNames n ≠ subtreeNames t := by
  simp [blobNames, levelNames, subtreeNames]

theorem draftNames_ne_subtreeNames (process : Nat) (n : Node) (t : Tile) :
    draftNames process n ≠ subtreeNames t := by
  simp [draftNames, levelNames, subtreeNames]

section

variable (hfiles : files.Lawful top view) (hnames : ∀ name ∈ names, Path.IsName name)
  (hsound : CacheSound s E (view m.state))

include hfiles hnames

theorem aside_makeDirectories :
    Leads (Aside top view) (files.recorded.makeDirectories (top.under names)).run :=
  aside_recording (fun _ => rfl)
    fun c t => congrFun (hfiles.view_makeDirectories names c hnames) (subtreeNames t)

theorem aside_write (bytes : ByteArray) (hsubtree : ∀ t, subtreeNames t ≠ names)
    (hparent : (top.under names).parent ≠ top.child "subtrees") :
    Leads (Aside top view) (files.recorded.write (top.under names) bytes).run :=
  aside_recording (fun _ => if_neg hparent)
    fun c t => hfiles.view_write names bytes c _ hnames (hsubtree t)

include hsound

theorem delivers_makeDirectories :
    Delivers s E top view (files.recorded.makeDirectories (top.under names)) m []
      (fun _ m' => view m'.state = view m.state) := by
  have hview := hfiles.view_makeDirectories names m.state hnames
  refine .recording_aside (aside_makeDirectories hfiles hnames) (fun _ => rfl) ?_
    fun _ m' _ hstate => ?_
  · rw [hview]
    exact hsound
  · rw [hstate, hview]

/-- A file that is neither a blob's nor a subtree's. -/
theorem delivers_write_aside (bytes : ByteArray) (hblob : ∀ n, blobNames n ≠ names)
    (hsubtree : ∀ t, subtreeNames t ≠ names)
    (hparent : (top.under names).parent ≠ top.child "subtrees") :
    Delivers s E top view (files.recorded.write (top.under names) bytes) m []
      (fun _ m' => view m'.state names = some bytes) := by
  refine .recording_aside (aside_write hfiles hnames bytes hsubtree hparent) (fun _ => rfl) ?_
    fun _ m' hok hstate => ?_
  · intro n stored hstored
    rw [hfiles.view_write names bytes m.state _ hnames (hblob n)] at hstored
    exact hsound n stored hstored
  · rw [hstate]
    exact hfiles.write_ok names bytes m.state hnames hok

end

theorem delivers_writeSubtree (hfiles : files.Lawful top view)
    (hsound : CacheSound s E (view m.state)) (t : Tile) :
    Delivers s E top view (files.recorded.write (subtreePath top t) (freshBytes s E t)) m [t]
      (fun _ _ => True) := by
  have hnames := isName_subtreeNames t
  have hparent := parent_subtreePath top t
  have hothers (other : List String) (h : other ≠ subtreeNames t) :=
    hfiles.view_write (subtreeNames t) (freshBytes s E t) m.state other hnames h
  have hok := hfiles.write_ok (subtreeNames t) (freshBytes s E t) m.state hnames
  rw [← subtreePath_eq] at hothers hok
  refine .recording (fun _ => rfl) ?_ fun _ m' hanswer hm' => ?_
  · intro n stored hstored
    rw [hothers _ (blobNames_ne_subtreeNames n t)] at hstored
    exact hsound n stored hstored
  · subst hm'
    refine ⟨⟨?_, fun t' ht' => ?_, fun t' ht' => ?_⟩, trivial⟩
    · rw [writesIn_cons, Deed.writeIn?, if_pos hparent]
      rfl
    · rw [List.mem_singleton.1 ht']
      exact hok hanswer
    · exact hothers _ fun h => ht' (List.mem_singleton.2 (subtreeNames_injective h))

end ImplicitTiling.Generator
