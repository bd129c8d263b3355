import ImplicitTiling.Proofs.Compression.RoundTrip
import ImplicitTiling.Proofs.Generator.Delivery
import ImplicitTiling.Proofs.Generator.Run
import ImplicitTiling.Proofs.Store.BlobFiles

/-!
# Requests of a generator to the store

The cache of a generator keeps blobs in files. What is saved goes into its file as a whole or not at
all (`delivers_saveBlob`), and what is loaded is what was saved (`delivers_loadBlob`), so the store
answers every request for a rank root, unless a file operation fails: `delivers_request`.
-/

namespace ImplicitTiling

namespace Generator

open Store Recorded

variable {σ ε α β : Type} {s : Schedule} {E : Node → Bool} {top : Path} {view : σ → Files}
  {m : Recorded σ} {tiles : List Tile} {files : FileSystem (StateM σ)}

/-! ## Blobs -/

theorem Delivers.cleanUp {operation : ExceptT ε (StateM (Recorded σ)) α}
    {cleaning : ExceptT ε (StateM (Recorded σ)) β} {post : α → Recorded σ → Prop}
    (h : Delivers s E top view operation m tiles post)
    (haside : Leads (Aside top view) cleaning.run)
    (hsound : ∀ m', CacheSound s E (view m'.state) →
      CacheSound s E (view (cleaning.run.run m').2.state)) :
    Delivers s E top view
      (tryCatch operation fun e => do
        let _ ← ExceptT.lift cleaning.run
        throw e) m tiles post := by
  obtain ⟨hsound', hok, herror⟩ := h
  cases hr : operation.run.run m with
  | mk result m' =>
    rw [hr] at hsound' hok herror
    cases result with
    | ok a =>
      have hrun : (tryCatch operation fun e => do
          let _ ← ExceptT.lift cleaning.run
          throw e).run.run m = (.ok a, m') := by
        rw [ExceptT.run_tryCatch, StateT.run_bind, hr]
        rfl
      constructor <;> rw [hrun]
      · exact hsound'
      · exact hok
      · exact herror
    | error e =>
      have hrun : (tryCatch operation fun e => do
          let _ ← ExceptT.lift cleaning.run
          throw e).run.run m = (.error e, (cleaning.run.run m').2) := by
        rw [ExceptT.run_tryCatch, StateT.run_bind, hr]
        rfl
      constructor <;> rw [hrun]
      · exact hsound m' hsound'
      · intro _ h
        cases h
      · exact fun _ _ hend => herror e rfl ((haside m').smooth hend)

theorem CacheSound.update {before : Files} (h : CacheSound s E before) {process : Nat} {n : Node}
    {blob : ByteArray} (hblob : IsBlob s E n blob) :
    CacheSound s E (Function.update (Function.update before (draftNames process n) none)
      (blobNames n) (some (Blob.compress blob))) := by
  intro n' stored hstored
  by_cases hn : n' = n
  · subst hn
    rw [Function.update_self] at hstored
    exact ⟨blob, (Option.some.inj hstored).symm, hblob⟩
  · rw [Function.update_of_ne fun h => hn (blobNames_injective h),
      Function.update_of_ne (blobNames_ne_draftNames process n n')] at hstored
    exact h n' stored hstored

theorem parent_draft (top : Path) (process : Nat) (n : Node) :
    (top.under (draftNames process n)).parent ≠ top.child "subtrees" := by
  have hlevel : (top.under (draftNames process n)).parent = top.under (levelNames n) :=
    Path.parent_under_concat _ _ _
  rw [hlevel, Path.child_eq_under]
  intro h
  exact absurd (congrArg List.length (Path.under_injective h)) (by simp [levelNames])

theorem aside_rename (hfiles : files.Lawful top view) (process : Nat) (n : Node) :
    Leads (Aside top view) (files.recorded.rename (top.under (draftNames process n))
      (top.under (blobNames n))).run := by
  refine aside_recording (fun _ => rfl) fun c t => ?_
  refine hfiles.view_rename _ _ c _ (isName_draftNames process n) (isName_blobNames n) ?_ ?_
  · simp [draftNames, levelNames, subtreeNames]
  · simp [blobNames, levelNames, subtreeNames]

theorem aside_remove (hfiles : files.Lawful top view) (process : Nat) (n : Node) :
    Leads (Aside top view) (files.recorded.remove (top.under (draftNames process n))).run :=
  aside_recording (fun _ => rfl) fun c t => hfiles.view_remove _ c _ (isName_draftNames process n)
    (draftNames_ne_subtreeNames process n t).symm

theorem delivers_rename (hfiles : files.Lawful top view) (hsound : CacheSound s E (view m.state))
    {process : Nat} {n : Node} {blob : ByteArray} (hblob : IsBlob s E n blob)
    (hdraft : view m.state (draftNames process n) = some (Blob.compress blob)) :
    Delivers s E top view (files.recorded.rename (top.under (draftNames process n))
      (top.under (blobNames n))) m [] (fun _ _ => True) := by
  have hsource := isName_draftNames process n
  have htarget := isName_blobNames n
  have hne := (blobNames_ne_draftNames process n n).symm
  refine .recording_aside (aside_rename hfiles process n) (fun _ => rfl) ?_
    fun _ _ _ _ => trivial
  cases hr : ((files.rename (top.under (draftNames process n))
      (top.under (blobNames n))).run.run m.state).1 with
  | ok =>
    rw [hfiles.rename_ok _ _ _ _ hsource htarget hne hdraft hr]
    exact hsound.update hblob
  | error e =>
    rw [hfiles.rename_error _ _ _ e hsource htarget hr]
    exact hsound

theorem saveBlob_eq (files : FileSystem (StateM σ)) (process : Nat) (n : Node)
    (blob : ByteArray) : DiskCache.saveBlob files (top.child "cache") process n blob = (do
      files.makeDirectories (top.under (levelNames n))
      files.write (top.under (draftNames process n)) (Blob.compress blob)
      tryCatch (files.rename (top.under (draftNames process n)) (top.under (blobNames n)))
        fun e => do
          let _ ← ExceptT.lift (files.remove (top.under (draftNames process n))).run
          throw e) := by
  unfold DiskCache.saveBlob
  simp only [blobPath_eq, draftPath_eq]
  have hparent : (top.under (blobNames n)).parent = top.under (levelNames n) :=
    Path.parent_under_concat _ _ _
  rw [hparent]

/-- A blob that is saved goes into its file as a whole or not at all. -/
theorem delivers_saveBlob (hfiles : files.Lawful top view)
    (hsound : CacheSound s E (view m.state)) (process : Nat) {n : Node} {blob : ByteArray}
    (hblob : IsBlob s E n blob) :
    Delivers s E top view
      (DiskCache.saveBlob files.recorded (top.child "cache") process n blob) m []
      (fun _ _ => True) := by
  rw [saveBlob_eq]
  refine (delivers_makeDirectories hfiles (isName_levelNames n) hsound).bind
    fun _ m₁ hsound₁ _ => ?_
  refine (delivers_write_aside hfiles (isName_draftNames process n) hsound₁ _
    (fun n' => blobNames_ne_draftNames process n n')
    (fun t => (draftNames_ne_subtreeNames process n t).symm) (parent_draft top process n)).bind
    fun _ m₂ hsound₂ hdraft => ?_
  refine (delivers_rename hfiles hsound₂ hblob hdraft).cleanUp (aside_remove hfiles process n)
    fun m₃ hsound₃ => ?_
  intro n' stored hstored
  have hview := hfiles.view_remove _ m₃.state _ (isName_draftNames process n)
    (blobNames_ne_draftNames process n n')
  exact hsound₃ n' stored (hview.symm.trans hstored)

theorem aside_saveBlob (hfiles : files.Lawful top view) (process : Nat) (n : Node)
    (blob : ByteArray) : Leads (Aside top view)
      (DiskCache.saveBlob files.recorded (top.child "cache") process n blob).run := by
  rw [saveBlob_eq]
  refine (aside_makeDirectories hfiles (isName_levelNames n)).bind_except Aside.refl Aside.trans
    fun _ => ?_
  refine (aside_write hfiles (isName_draftNames process n) _
    (fun t => (draftNames_ne_subtreeNames process n t).symm)
    (parent_draft top process n)).bind_except Aside.refl Aside.trans fun _ => ?_
  refine (aside_rename hfiles process n).tryCatch Aside.refl Aside.trans fun e => ?_
  refine Leads.bind_except Aside.refl Aside.trans ?_ fun _ => leads_pure Aside.refl _
  exact (aside_remove hfiles process n).bind Aside.trans fun _ => leads_pure Aside.refl _

theorem aside_loadBlob (hfiles : files.Lawful top view) (n : Node) :
    Leads (Aside top view)
      (DiskCache.loadBlob files.recorded (top.child "cache") n).run := fun m => by
  rw [DiskCache.run_loadBlob]
  exact aside_recording (fun _ => rfl)
    (fun c t => congrFun (hfiles.view_read _ c) (subtreeNames t)) m

/-- A file that holds a blob is loaded, found missing, or cannot be read. -/
theorem found_cases {n : Node} (hs : s.Valid)
    {answer : Except FileError ByteArray}
    (h : ∀ bytes, answer = .ok bytes → ∃ blob, bytes = Blob.compress blob ∧ IsBlob s E n blob) :
    DiskCache.found answer = .ok none ∨
      (∃ blob, DiskCache.found answer = .ok (some blob) ∧ IsBlob s E n blob) ∨
      ∃ e, answer = .error e ∧ e ≠ .notFound ∧ DiskCache.found answer = .error e := by
  cases answer with
  | ok bytes =>
    obtain ⟨blob, rfl, hblob⟩ := h bytes rfl
    refine .inr (.inl ⟨blob, ?_, hblob⟩)
    rw [DiskCache.found, Blob.decompress_compress (hblob.size_lt hs)]
    rfl
  | error e =>
    by_cases he : e = .notFound
    · subst he
      exact .inl rfl
    · exact .inr (.inr ⟨e, rfl, he, DiskCache.found_eq_error he⟩)

theorem delivers_loadBlob (hfiles : files.Lawful top view) (hs : s.Valid)
    (hsound : CacheSound s E (view m.state)) (n : Node) :
    Delivers s E top view (DiskCache.loadBlob files.recorded (top.child "cache") n) m []
      (fun found _ => ∀ blob ∈ found, IsBlob s E n blob) := by
  have haside := aside_loadBlob hfiles n m
  have hview := hfiles.view_read (top.under (blobNames n)) m.state
  have hcases := found_cases hs fun bytes hok =>
    hsound n bytes (hfiles.read_ok (blobNames n) m.state bytes (isName_blobNames n) hok)
  have hrun := DiskCache.run_loadBlob files.recorded (top.child "cache") n m
  rw [blobPath_eq, FileSystem.recorded_read, run_recording] at hrun
  rw [hrun] at haside
  constructor <;> rw [hrun]
  · show CacheSound s E (view _)
    rw [hview]
    exact hsound
  · intro found hfound
    refine ⟨haside.wrote, ?_⟩
    obtain hnone | ⟨blob, hsome, hblob⟩ | ⟨e, -, -, herror⟩ := hcases
    · obtain rfl : none = found := Except.ok.inj (hnone.symm.trans hfound)
      exact fun _ h => absurd h (Option.not_mem_none _)
    · obtain rfl : some blob = found := Except.ok.inj (hsome.symm.trans hfound)
      rintro _ ⟨⟩
      exact hblob
    · cases herror.symm.trans hfound
  · intro e he hend
    obtain hnone | ⟨blob, hsome, -⟩ | ⟨e', hanswer, hne, -⟩ := hcases
    · cases hnone.symm.trans he
    · cases hsome.symm.trans he
    · rw [smooth_cons, hanswer] at hend
      exact hne (of_not_not (of_decide_eq_false hend.1))

/-! ## Requests to the store -/

variable {host : Host (StateM σ)} {index : Footprints}

theorem aside_answer (hhost : host.Lawful top view) (index : Footprints) (a : Action) :
    Leads (Aside top view) (answer host.recorded index
      (DiskCache.cache host.recorded.files (top.child "cache") host.process) a) := by
  cases a with
  | query n => exact leads_pure Aside.refl _
  | fetch n =>
    refine (aside_loadBlob hhost.files n).bind Aside.trans fun result => ?_
    cases result with
    | ok _ => exact leads_pure Aside.refl _
    | error e => exact leads_pure Aside.refl _
  | save n blob =>
    refine (aside_saveBlob hhost.files host.process n blob).bind Aside.trans fun result => ?_
    cases result with
    | ok _ => exact leads_pure Aside.refl _
    | error e => exact leads_pure Aside.refl _
  | lock n => exact leads_pure Aside.refl _
  | unlock n => exact leads_pure Aside.refl _
  | note r => exact aside_unrecorded (hhost.view_note r)

/-- Whether some feature touches the tile of a node. -/
def touched (index : Footprints) (n : Node) : Bool :=
  index.touches n.degrees

/-- An operation that goes aside leaves the cache sound, and fails only if a file operation does. -/
theorem Delivers.outcome {action : StateM (Recorded σ) (Except Error α)}
    {post : α → Prop} (h : Delivers s E top view (.mk action) m [] fun a _ => post a) {fails : Prop}
    (hfails : ¬ Smooth (action.run m).2 → fails) : Outcome fails post (action.run m).1 := by
  cases hr : (action.run m).1 with
  | ok a => exact (h.ok a hr).2
  | error e => exact hfails (h.error e hr)

/-- A lawful host keeps the contract of the store, unless a file operation fails. -/
theorem answer_delivers (hhost : host.Lawful top view) (hs : s.Valid) {fails : Prop} (a : Action)
    (hasks : (contract s (touched index) fails).asks a)
    (hsound : CacheSound s (touched index) (view m.state))
    (hfails : ¬ Smooth ((answer host.recorded index (DiskCache.cache host.recorded.files
      (top.child "cache") host.process) a).run m).2 → fails) :
    (contract s (touched index) fails).answers a ((answer host.recorded index
      (DiskCache.cache host.recorded.files (top.child "cache") host.process) a).run m).1 ∧
    CacheSound s (touched index) (view ((answer host.recorded index
      (DiskCache.cache host.recorded.files (top.child "cache") host.process) a).run m).2.state) := by
  cases a with
  | query n => exact ⟨rfl, hsound⟩
  | fetch n =>
    have h := (delivers_loadBlob hhost.files hs hsound n).adapt
      fun e => Error.storage (.unreadable (DiskCache.blobPath (top.child "cache") n).text e)
    rw [← DiskCache.get_eq _ _ host.process] at h
    exact ⟨h.outcome hfails, h.sound⟩
  | save n blob =>
    have h := (delivers_saveBlob hhost.files hsound host.process hasks).adapt
      fun e => Error.storage (.unwritable (DiskCache.blobPath (top.child "cache") n).text e)
    rw [← DiskCache.put_eq] at h
    exact ⟨h.outcome hfails, h.sound⟩
  | lock n => exact ⟨trivial, hsound⟩
  | unlock n => exact ⟨trivial, hsound⟩
  | note r =>
    refine ⟨trivial, ?_⟩
    show CacheSound s (touched index) (view ((host.note r).run m.state).2)
    rw [hhost.view_note]
    exact hsound

/-- The store answers the request for a rank root, unless a file operation fails. -/
theorem delivers_request (hhost : host.Lawful top view) (hs : s.Valid)
    (hsound : CacheSound s (touched index) (view m.state)) {t : Tile}
    (hroot : s.isRankRoot t.level = true) (hin : inLevel t = true) :
    Delivers s (touched index) top view
      (.mk (Routine.run (answer host.recorded index
        (DiskCache.cache host.recorded.files (top.child "cache") host.process))
        (Store.get s t).run) : ExceptT Error (StateM (Recorded σ)) ByteArray) m []
      (fun bytes _ => IsAnswer s (touched index) t bytes) := by
  let replies := answer host.recorded index
    (DiskCache.cache host.recorded.files (top.child "cache") host.process)
  let fails := ¬ Smooth ((Routine.run replies (Store.get s t).run).run m).2
  have hbad (a : Action) (m' : Recorded σ) (hbad : ¬ Smooth m') :
      ¬ Smooth ((replies a).run m').2 :=
    fun hend => hbad ((aside_answer hhost index a m').smooth hend)
  have hreplies (a : Action) (m' : Recorded σ) (hasks : (contract s (touched index) fails).asks a)
      (hm' : CacheSound s (touched index) (view m'.state) ∧ Aside top view m m')
      (hfails : ¬ Smooth ((replies a).run m').2 → fails) :
      (contract s (touched index) fails).answers a ((replies a).run m').1 ∧
        CacheSound s (touched index) (view ((replies a).run m').2.state) ∧
          Aside top view m ((replies a).run m').2 := by
    obtain ⟨hanswer, hsound'⟩ := answer_delivers hhost hs a hasks hm'.1 hfails
    exact ⟨hanswer, hsound', hm'.2.trans _ _ _ (aside_answer hhost index a m')⟩
  have hmeets : Build.Meets (contract s (touched index) fails) fails
      (IsAnswer s (touched index) t) (Store.get s t) :=
    meets_get hs fun h => (h ⟨hroot, hin⟩).elim
  obtain ⟨hanswer, hsound', haside⟩ :=
    Routine.Meets.run_unless hbad hreplies hmeets ⟨hsound, Aside.refl m⟩ fun hend => hend
  refine ⟨hsound', fun bytes hok => ⟨haside.wrote, ?_⟩, fun e herror => ?_⟩
  · have hresult : ((Routine.run replies (Store.get s t).run).run m).1 = .ok bytes := hok
    rw [hresult] at hanswer
    exact hanswer
  · have hresult : ((Routine.run replies (Store.get s t).run).run m).1 = .error e := herror
    rw [hresult] at hanswer
    exact hanswer

end Generator

end ImplicitTiling
