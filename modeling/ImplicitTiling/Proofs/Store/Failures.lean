import ImplicitTiling.Proofs.Store.Caches
import ImplicitTiling.Proofs.Store.Occupied
import ImplicitTiling.Proofs.Store.Protocol
import ImplicitTiling.Proofs.Subtree.Untrusted
import ImplicitTiling.Store.Session

/-!
# Failures are passed on

A request that is refused for its tile is refused at once. Any other fails only if the oracle or the
cache does: the first failure of either ends the request and is its error, and until then nothing was
saved under the rank root that was asked for (`get_fails_as_called`). So none of the checks within
the store ever fails, whatever the cache holds and however the oracle answers.

What a routine may still ask depends on what happened so far, so the protocol `recording` takes the
list of events for what is known. A routine that `Relays` failures begins with a clean list and ends
with a clean one, or with the failure that it passes on in front of a clean one.
-/

namespace ImplicitTiling

/-- The error of an answer that is a failure. -/
def failure? {α : Type} : Except Error α → Option Error
  | .ok _ => none
  | .error e => some e

namespace Event

/-- The error that the oracle or the cache failed with. -/
def failure? : Event → Option Error
  | .queried _ answer => ImplicitTiling.failure? answer
  | .fetched _ answer => ImplicitTiling.failure? answer
  | .saved _ _ answer => ImplicitTiling.failure? answer
  | .noted _ => none

/-- What a session lists of a request and its answer. -/
def ofAnswer : (a : Action) → a.Answer → List Event
  | .query n, found => [.queried n found]
  | .fetch n, found => [.fetched n found]
  | .save n blob, done => [.saved n blob done]
  | .lock _, _ => []
  | .unlock _, _ => []
  | .note r, _ => [.noted r]

end Event

theorem Session.events_answer {σ : Type} (oracle : Oracle) (cache : BlobCache (StateM σ))
    (a : Action) (session : Session σ) :
    ((answer oracle cache a).run session).2.events =
      Event.ofAnswer a ((answer oracle cache a).run session).1 ++ session.events := by
  obtain ⟨c, calls, events⟩ := session
  cases a <;> rfl

namespace Store

/-- Nothing has failed. -/
def Unfailed (events : List Event) : Prop :=
  ∀ e ∈ events, e.failure? = none

/-- Nothing has failed, and nothing was saved under `own`. -/
structure Clean (own : Node) (events : List Event) : Prop where
  unfailed : Unfailed events
  unsaved : ∀ blob done, .saved own blob done ∉ events

/-- The failure `e` happened last, and first. -/
def FailedLast (own : Node) (e : Error) (events : List Event) : Prop :=
  ∃ call before, events = call :: before ∧ call.failure? = some e ∧ Clean own before

theorem clean_nil (own : Node) : Clean own [] :=
  ⟨nofun, nofun⟩

theorem Unfailed.cons {events : List Event} (h : Unfailed events) {e : Event}
    (he : e.failure? = none) : Unfailed (e :: events) :=
  List.forall_mem_cons.2 ⟨he, h⟩

theorem Clean.cons {own : Node} {events : List Event} (h : Clean own events) {e : Event}
    (he : e.failure? = none) (hown : ∀ blob done, e ≠ .saved own blob done) :
    Clean own (e :: events) := by
  refine ⟨h.unfailed.cons he, fun blob done hmem => ?_⟩
  rcases List.mem_cons.1 hmem with heq | hmem
  · exact hown blob done heq.symm
  · exact h.unsaved blob done hmem

/-- Nobody else is at work. The oracle and the cache are called, and the journal written, only as long
as nothing has failed; and they are called only as long as nothing was saved under `own`. -/
def recording (own : Node) : Protocol (List Event) where
  Meanwhile events events' := events' = events
  refl _ := rfl
  trans h h' := h'.trans h
  Asks
    | events, .note _ => Unfailed events
    | _, .lock _ => True
    | _, .unlock _ => True
    | events, _ => Clean own events
  Answers events a answer events' := events' = Event.ofAnswer a answer ++ events

/-- How a routine ends that passes failures on; `post` speaks of its value. -/
def Relayed {α : Type} (own : Node) (post : α → Prop) : Except Error α → List Event → Prop
  | .ok a, events => Clean own events ∧ post a
  | .error e, events => FailedLast own e events

/-- The routine fails only with the first failure of the oracle or the cache, and then at once. It
saves nothing under `own`. -/
def Relays {α : Type} (own : Node) (post : α → Prop) (b : Build α) : Prop :=
  ∀ events, Clean own events → b.run.Keeps (recording own) (Relayed own post) events

section

open Build

variable {α β : Type} {own : Node} {post : α → Prop} {post' : β → Prop}

/-! ## Composed routines -/

theorem Relays.pure {a : α} (h : post a) : Relays own post (pure a) := by
  rintro events hclean _ rfl
  exact ⟨hclean, h⟩

/-- A routine that begins with a part that passes failures on, however it ends. -/
theorem Relays.run_bind {b : Build α} (h : Relays own post b) {f : α → Build β}
    {ends : Except Error β → List Event → Prop} {events : List Event} (hclean : Clean own events)
    (herror : ∀ e events', FailedLast own e events' → ends (.error e) events')
    (hf : ∀ a, post a → ∀ events', Clean own events' →
      (f a).run.Keeps (recording own) ends events') :
    (b >>= f).run.Keeps (recording own) ends events := by
  apply Routine.Keeps.bind (h events hclean)
  intro r events' hr
  cases r with
  | ok a => exact hf a hr.2 events' hr.1
  | error e =>
    rintro _ rfl
    exact herror e _ hr

theorem Relays.bind {b : Build α} (h : Relays own post b) {f : α → Build β}
    (hf : ∀ a, post a → Relays own post' (f a)) : Relays own post' (b >>= f) :=
  fun _ hclean => h.run_bind hclean (fun _ _ he => he) hf

/-- A single request whose answer is the outcome. -/
theorem Relays.ask (action : Action) {next : action.Answer → Except Error α}
    (hasks : ∀ events, Clean own events → (recording own).Asks events action)
    (hnext : ∀ events answer, Clean own events →
      Relayed own post (next answer) (Event.ofAnswer action answer ++ events)) :
    Relays own post (.mk (.ask action fun answer => .done (next answer))) := by
  rintro events hclean _ rfl
  refine ⟨hasks _ hclean, ?_⟩
  rintro answer _ rfl _ rfl
  exact hnext _ answer hclean

theorem relays_query (n : Node) : Relays own (fun _ => True) (query n) := by
  refine Relays.ask (.query n) (fun _ h => h) fun events answer hclean => ?_
  cases answer with
  | ok found => exact ⟨hclean.cons rfl fun _ _ => nofun, trivial⟩
  | error e => exact ⟨_, events, rfl, rfl, hclean⟩

theorem relays_fetch (n : Node) : Relays own (fun _ => True) (fetch n) := by
  refine Relays.ask (.fetch n) (fun _ h => h) fun events answer hclean => ?_
  cases answer with
  | ok found => exact ⟨hclean.cons rfl fun _ _ => nofun, trivial⟩
  | error e => exact ⟨_, events, rfl, rfl, hclean⟩

theorem relays_save {n : Node} (hn : n ≠ own) (blob : ByteArray) :
    Relays own (fun _ => True) (save n blob) := by
  refine Relays.ask (.save n blob) (fun _ h => h) fun events answer hclean => ?_
  cases answer with
  | ok _ =>
    refine ⟨hclean.cons rfl fun _ _ heq => ?_, trivial⟩
    cases heq
    exact hn rfl
  | error e => exact ⟨_, events, rfl, rfl, hclean⟩

theorem relays_note (r : Record) : Relays own (fun _ => True) (note r) :=
  Relays.ask (.note r) (fun _ h => h.unfailed) fun _ _ hclean =>
    ⟨hclean.cons rfl fun _ _ => nofun, trivial⟩

theorem Relays.check {r : Except Precondition α} {a : α} (hr : r = .ok a) (h : post a) :
    Relays own post (check r) := by
  subst hr
  exact .pure h

theorem Relays.check_eq {r : Except Precondition α} {a : α} (hr : r = .ok a) :
    Relays own (· = a) (Build.check r) :=
  .check hr rfl

theorem Relays.withLock {n : Node} {body : Build α} (h : Relays own post body) :
    Relays own post (withLock n body) := by
  rintro events hclean _ rfl
  refine ⟨trivial, ?_⟩
  rintro _ _ rfl
  refine Routine.Keeps.bind (h _ hclean) ?_
  rintro r events' hr _ rfl
  refine ⟨trivial, ?_⟩
  rintro _ _ rfl _ rfl
  exact hr

theorem Relays.mapM {ι : Type} {f : ι → Build α} {items : List ι}
    (h : ∀ i ∈ items, Relays own post (f i)) :
    Relays own (fun values => values.length = items.length ∧ ∀ a ∈ values, post a)
      (items.mapM f) := by
  induction items with
  | nil => exact .pure ⟨rfl, fun _ h => nomatch h⟩
  | cons i items ih =>
    rw [List.mapM_cons]
    obtain ⟨hi, hitems⟩ := List.forall_mem_cons.1 h
    refine hi.bind fun a ha => (ih hitems).bind fun values hvalues => .pure ?_
    exact ⟨congrArg (· + 1) hvalues.1, List.forall_mem_cons.2 ⟨ha, hvalues.2⟩⟩

theorem Relays.foldlM {ι : Type} {f : α → ι → Build α} {items : List ι}
    (h : ∀ i a, post a → Relays own post (f a i)) {a : α} (ha : post a) :
    Relays own post (items.foldlM f a) := by
  induction items generalizing a with
  | nil => exact .pure ha
  | cons i items ih =>
    rw [List.foldlM_cons]
    exact (h i a ha).bind fun a' ha' => ih ha'

/-! ## Building -/

variable {s : Schedule}

theorem relays_scanLeaves (n : Node) (depth : Nat) :
    Relays own (fun leaves => leaves.size = 4 ^ depth) (scanLeaves n depth) := by
  refine Relays.foldlM (fun i leaves hsize => ?_) (Bitset.size_empty _)
  refine (relays_query _).bind fun found _ => .pure ?_
  split
  · rw [Bitset.size_set, hsize]
  · exact hsize

theorem relays_buildDeepest (hs : s.Valid) (n : Node) :
    Relays own (fun t => t.levels = s.subtreeLevels) (buildDeepest s n) := by
  refine (relays_query n).bind fun found _ => ?_
  cases found with
  | false => exact (relays_note _).bind fun _ _ => .pure rfl
  | true =>
    refine (relays_scanLeaves n _).bind fun leaves hsize => ?_
    obtain ⟨tiles, t, htiles, hcontent, ht, hlevels, -⟩ := exists_ofLeaves hs hsize
    refine (Relays.check_eq htiles).bind ?_
    rintro _ rfl
    refine (Relays.check_eq hcontent).bind ?_
    rintro _ rfl
    exact .check ht hlevels

/-- A node is told by four parts of equal depth. -/
theorem relays_join {levels : Nat} (h1 : 1 ≤ levels) {parts : List Subtree}
    (h4 : parts.length = 4) (hlevels : ∀ part ∈ parts, part.levels = levels) :
    Relays own (fun t => t.levels = levels + 1) (Build.check (Subtree.concatenate parts)) := by
  obtain ⟨t, ht, hjoin⟩ := Subtree.exists_isJoin h4 hlevels h1
  exact .check ht hjoin.levels_eq

theorem relays_summary {t : Subtree} (h1 : 1 ≤ t.levels) :
    Relays own (fun r => r.levels = 1) (Build.check t.summary) := by
  obtain ⟨r, hr, hsummary⟩ := t.exists_isSummary h1
  exact .check hr hsummary.levels_eq

theorem relays_descend (hs : s.Valid) {resolve : Node → Build Subtree} {root : Nat}
    (hresolve : ∀ n : Node, n.level = root →
      Relays own (fun sub => sub.levels = s.subtreeLevels) (resolve n))
    {levels : Nat} {n : Node} (h1 : 1 ≤ levels) (hl : n.level + levels = root) :
    Relays own (fun t => t.levels = levels) (descend resolve levels n) := by
  induction levels generalizing n with
  | zero => exact absurd h1 (by decide)
  | succ levels ih =>
    have hchild (q : UInt64) : (n.child q).level = n.level + 1 := rfl
    refine (relays_query n).bind fun found _ => ?_
    cases found with
    | false => exact (relays_note _).bind fun _ _ => .pure rfl
    | true =>
      by_cases h0 : levels = 0
      · subst h0
        have hparts : Relays own (fun parts : List Subtree =>
            parts.length = quadrants.length ∧ ∀ r ∈ parts, r.levels = 1) (quadrants.mapM fun q => do
              Build.check (← resolve (n.child q)).summary) := by
          refine Relays.mapM fun q _ => (hresolve _ hl).bind fun sub hsub => ?_
          exact relays_summary (hsub ▸ hs.levels_pos)
        refine hparts.bind fun parts ⟨h4, hone⟩ => ?_
        refine (relays_join (Nat.le_refl 1) h4 hone).bind fun joined hjoined => ?_
        exact relays_summary (by rw [hjoined]; decide)
      · simp only [if_neg h0, if_true]
        have hparts : Relays own (fun parts : List Subtree =>
            parts.length = quadrants.length ∧ ∀ part ∈ parts, part.levels = levels)
            (quadrants.mapM fun q => descend resolve levels (n.child q)) :=
          Relays.mapM fun q _ => ih (by omega) (by rw [hchild]; omega)
        exact hparts.bind fun parts ⟨h4, hlevels⟩ => relays_join (by omega) h4 hlevels

theorem relays_fetchDecoded (hs : s.Valid) (n : Node) :
    Relays own (fun found => ∀ t ∈ found, t.levels = s.subtreeLevels) (fetchDecoded s n) := by
  unfold fetchDecoded
  split
  · exact .pure fun _ h => nomatch h
  refine (relays_fetch n).bind fun found _ => ?_
  cases found with
  | none => exact .pure fun _ h => nomatch h
  | some blob =>
    rcases Subtree.decode_format_or_ok blob hs.levels_pos hs.levels_le with ⟨cause, he⟩ | ⟨t, ht, hl⟩
    · simp only [he]
      exact (relays_note _).bind fun _ _ => .pure fun _ h => nomatch h
    · simp only [ht]
      exact .pure fun t' h => Option.some.inj h ▸ hl

theorem relays_resolve (hs : s.Valid) {build : Node → Build Subtree} {n : Node} (hn : n ≠ own)
    (hbuild : Relays own (fun t => t.levels = s.subtreeLevels) (build n)) :
    Relays own (fun sub => sub.levels = s.subtreeLevels) (resolve s build n) := by
  refine Relays.withLock ((relays_fetchDecoded hs n).bind fun found hfound => ?_)
  cases found with
  | some t => exact .pure (hfound t rfl)
  | none =>
    have hsaved : Relays own (fun result => result.1.levels = s.subtreeLevels)
        (buildAndSave build n) :=
      hbuild.bind fun t ht => (relays_save hn _).bind fun _ _ =>
        (relays_note _).bind fun _ _ => .pure ht
    exact hsaved.bind fun _ h => .pure h

/-- What is saved while a rank is built stands further down than its root. -/
theorem relays_buildRank (hs : s.Valid) {ranks : Nat} {n : Node} (hown : own.level ≤ n.level) :
    Relays own (fun t => t.levels = s.subtreeLevels) (buildRank s ranks n) := by
  induction ranks generalizing n with
  | zero => exact relays_buildDeepest hs n
  | succ ranks ih =>
    refine relays_descend hs (fun n' hn' => ?_) hs.levels_pos rfl
    have hpos := hs.levels_pos
    refine relays_resolve hs ?_ (ih (by omega))
    rintro rfl
    omega

end

/-! ## Requests -/

variable {s : Schedule} {t : Tile}

/-- How a request ends that is not refused: nothing has failed, or it passes a failure on. -/
def Finished (own : Node) : Except Error ByteArray → List Event → Prop
  | .ok _, events => Unfailed events
  | .error e, events => FailedLast own e events

/-- The rank root itself is saved last, so a failure finds it unsaved. -/
theorem keeps_buildAndSave_recording (hs : s.Valid) (t : Tile) {ranks : Nat} {events : List Event}
    (hclean : Clean t.node events) :
    (do return (← buildAndSave (buildRank s ranks) t.node).2 : Build ByteArray).run.Keeps
      (recording t.node) (Finished t.node) events := by
  unfold buildAndSave
  rw [bind_assoc]
  refine (relays_buildRank hs (Nat.le_refl _)).run_bind hclean (fun _ _ h => h) ?_
  rintro sub - events hclean _ rfl
  refine ⟨hclean, ?_⟩
  rintro done _ rfl
  cases done with
  | error e =>
    rintro _ rfl
    exact ⟨_, _, rfl, rfl, hclean⟩
  | ok _ =>
    have hsaved := hclean.unfailed.cons (e := .saved t.node sub.encode (.ok ())) rfl
    rintro _ rfl
    refine ⟨hsaved, ?_⟩
    rintro _ _ rfl _ rfl
    exact hsaved.cons rfl

theorem keeps_get_recording (hs : s.Valid) (hroot : s.isRankRoot t.level = true)
    (hin : inLevel t = true) {events : List Event} (hclean : Clean t.node events) :
    (get s t).run.Keeps (recording t.node) (Finished t.node) events := by
  rw [get_eq_withLock hroot hin]
  rintro _ rfl
  refine ⟨trivial, ?_⟩
  rintro _ _ rfl
  have hfetch : Relays t.node (fun _ => True) (fetchBytes s t.node) := by
    unfold fetchBytes
    split
    · exact .pure trivial
    · exact relays_fetch _
  refine Routine.Keeps.bind (?_ : Routine.Keeps _ (Finished t.node) _ _) ?_
  · refine hfetch.run_bind hclean (fun _ _ h => h) fun found _ events' hclean' => ?_
    cases found with
    | some bytes =>
      refine (relays_note _).run_bind hclean' (fun _ _ h => h) fun _ _ events'' hclean'' => ?_
      rintro _ rfl
      exact hclean''.unfailed
    | none => exact keeps_buildAndSave_recording hs t hclean'
  · rintro r events' hr _ rfl
    refine ⟨trivial, ?_⟩
    rintro _ _ rfl _ rfl
    exact hr

section

variable {σ : Type} (oracle : Oracle) (cache : BlobCache (StateM σ)) (session : Session σ)

theorem perform_throw {e : Error} (h : get s t = throw e) :
    Session.perform oracle cache (get s t) session = (.error e, session) := by
  rw [h]
  rfl

/-- A request that is not refused. -/
theorem finished_perform (hs : s.Valid) (hroot : s.isRankRoot t.level = true)
    (hin : inLevel t = true) (hclean : Clean t.node session.events) :
    Finished t.node (Session.perform oracle cache (get s t) session).1
      (Session.perform oracle cache (get s t) session).2.events := by
  obtain ⟨events, hfinished, hevents⟩ :=
    Routine.Keeps.run (fun events (session : Session σ) => session.events = events)
      (fun a events session _ hs => ⟨_, rfl, hs ▸ Session.events_answer oracle cache a session⟩)
      (keeps_get_recording hs hroot hin hclean) rfl
  exact hevents ▸ hfinished

end

/-- **Failures are passed on.** A request for a tile that is not a rank root, or not within its level,
is refused and makes no call. Any other request succeeds and no call has failed, or the last call of
all failed and was the first to fail; then its error is the error of the request, and nothing was
saved before under the rank root. -/
theorem get_fails_as_called {σ : Type} (hs : s.Valid) (oracle : Oracle)
    (cache : BlobCache (StateM σ)) (t : Tile) (state : σ) {result : Except Error ByteArray}
    {after : Session σ}
    (h : Session.perform oracle cache (get s t) ⟨state, 0, []⟩ = (result, after)) :
    (result = .error (.notRankRoot t.level) ∧ after.events = [] ↔
      s.isRankRoot t.level = false) ∧
    (result = .error (.precondition (.outsideLevel t.level t.x t.y)) ∧ after.events = [] ↔
      s.isRankRoot t.level = true ∧ (2 ^ t.level ≤ t.x.toNat ∨ 2 ^ t.level ≤ t.y.toNat)) ∧
    (s.isRankRoot t.level = true → t.x.toNat < 2 ^ t.level → t.y.toNat < 2 ^ t.level →
      ((∃ bytes, result = .ok bytes) ∧ ∀ call ∈ after.events, call.failure? = none) ∨
      ∃ e call before, result = .error e ∧ after.events = call :: before ∧
        call.failure? = some e ∧ (∀ earlier ∈ before, earlier.failure? = none) ∧
        ∀ blob answer, .saved t.node blob answer ∉ before) := by
  cases hroot : s.isRankRoot t.level with
  | false =>
    rw [perform_throw oracle cache _ (get_eq_throw_notRankRoot hroot)] at h
    obtain ⟨rfl, rfl⟩ := Prod.mk.inj h
    exact ⟨by simp, by simp, nofun⟩
  | true =>
    cases hin : inLevel t with
    | false =>
      rw [perform_throw oracle cache _ (get_eq_throw_outsideLevel hroot hin)] at h
      obtain ⟨rfl, rfl⟩ := Prod.mk.inj h
      have hout := inLevel_eq_false_iff.1 hin
      exact ⟨by simp, by simp [hout], fun _ hx hy => absurd hout (by omega)⟩
    | true =>
      have hfinished := finished_perform oracle cache ⟨state, 0, []⟩ hs hroot hin (clean_nil _)
      rw [h] at hfinished
      have hlt := inLevel_eq_true_iff.1 hin
      cases result with
      | ok bytes =>
        exact ⟨by simp, by simpa using hlt, fun _ _ _ => .inl ⟨⟨bytes, rfl⟩, hfinished⟩⟩
      | error e =>
        obtain ⟨call, before, hevents, hcall, hbefore⟩ := hfinished
        -- the failure is in the list, so the request was not refused
        have hcalled : after.events ≠ [] := by
          rw [hevents]
          exact List.cons_ne_nil _ _
        refine ⟨by simp [hcalled], ?_, fun _ _ _ => ?_⟩
        · constructor
          · rintro ⟨-, hnil⟩
            exact absurd hnil hcalled
          · rintro ⟨-, hout⟩
            omega
        · exact .inr ⟨e, call, before, rfl, hevents, hcall, hbefore.unfailed, hbefore.unsaved⟩

/-- The second call of the oracle fails, and the cache holds three bytes under one of the rank roots
below the one that is requested. -/
theorem get_fails_as_called_second_query : ∃ (oracle : Oracle) (blobs : Blobs)
    (after : Session Blobs) (call : Event) (before : List Event),
    blobs ⟨1, 0⟩ = some ⟨#[1, 2, 3]⟩ ∧
      Session.perform oracle Blobs.cache (get ⟨0, 1, 1, false⟩ ⟨0, 0, 0⟩) ⟨blobs, 0, []⟩ =
        (.error (.storage (.stated "down")), after) ∧
      after.events = call :: before ∧ call.failure? = some (.storage (.stated "down")) ∧
      (∀ earlier ∈ before, earlier.failure? = none) ∧
      ∀ blob answer, .saved ⟨0, 0⟩ blob answer ∉ before := by
  let oracle := (Oracle.fixed true).failingAt (.storage (.stated "down")) 1
  let blobs : Blobs := fun n => if n = ⟨1, 0⟩ then some ⟨#[1, 2, 3]⟩ else none
  have hs : Schedule.Valid ⟨0, 1, 1, false⟩ := (Schedule.validate_eq_ok_iff _).1 rfl
  have hresult : (Session.perform oracle Blobs.cache (get ⟨0, 1, 1, false⟩ ⟨0, 0, 0⟩)
      ⟨blobs, 0, []⟩).1 = .error (.storage (.stated "down")) := by rfl
  have hperform : Session.perform oracle Blobs.cache (get ⟨0, 1, 1, false⟩ ⟨0, 0, 0⟩)
      ⟨blobs, 0, []⟩ = (.error (.storage (.stated "down")), _) := Prod.ext hresult rfl
  obtain ⟨-, -, hcalls⟩ := get_fails_as_called hs oracle Blobs.cache ⟨0, 0, 0⟩ blobs hperform
  rcases hcalls rfl Nat.one_pos Nat.one_pos with ⟨⟨bytes, hok⟩, -⟩ | ⟨e, call, before, he, hcall⟩
  · cases hok
  · cases he
    exact ⟨oracle, blobs, _, call, before, rfl, hperform, hcall⟩

end Store

end ImplicitTiling
