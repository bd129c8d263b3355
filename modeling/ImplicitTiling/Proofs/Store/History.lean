import ImplicitTiling.Proofs.Store.Answers
import Mathlib.Logic.Relation

/-!
# Requests one after another and at once

Many requests share one cache. `World.Step` lets each of them go on by one request to its
surroundings at a time, in any order: a query is answered by one function of the tile or fails, the
cache gives what was put last or fails, and between any two steps it may drop blobs. Locks are
granted at once, so the runs of a store with real locks are among these; so is what a session does
for a request, over a memory cache of any capacity (`World.Reachable.perform`).

What is done of every request is kept right by every step (`World.Sound.step`). So nothing of the
history shows in the answers: `answer_eq_fresh`.
-/

namespace ImplicitTiling.Store

/-- The answer to a request for a tile in a new store, whose cache is empty and whose oracle never
fails. -/
def fresh (s : Schedule) (E : Node → Bool) (t : Tile) : Except Error ByteArray :=
  (Session.perform (.ofFunction E) MemoryCache.cache (get s t) ⟨.empty none, 0, []⟩).1

/-- A request that is under way, with what is left of it to do. -/
structure Pending where
  tile : Tile
  rest : Routine (Except Error ByteArray)

/-- The cache, the requests under way, and the answers to those that are done. -/
structure World where
  blobs : Blobs
  pending : List Pending
  answered : List (Tile × Except Error ByteArray)

namespace World

/-- Nothing is cached and nothing was requested. -/
def start : World :=
  ⟨fun _ => none, [], []⟩

/-- A request to the surroundings may be answered so while the cache holds `blobs`. -/
def MayAnswer (E : Node → Bool) (blobs : Blobs) : (a : Action) → a.Answer → Prop
  | .query n => Outcome True fun found => found = E n
  | .fetch n => Outcome True fun found => found = blobs n
  | .save _ _ => fun _ => True
  | .lock _ => fun _ => True
  | .unlock _ => fun _ => True
  | .note _ => fun _ => True

/-- What the cache holds after a request that is answered so. -/
def after (blobs : Blobs) : (a : Action) → a.Answer → Blobs
  | .save n blob, .ok _ => Function.update blobs n (some blob)
  | _, _ => blobs

/-- What can happen next. -/
inductive Step (s : Schedule) (E : Node → Bool) : World → World → Prop
  /-- A tile is requested. -/
  | request (w : World) (t : Tile) :
    Step s E w { w with pending := ⟨t, (get s t).run⟩ :: w.pending }
  /-- A request under way goes one step on. -/
  | proceed {w : World} (front back : List Pending) {t : Tile} {a : Action}
      {next : a.Answer → Routine (Except Error ByteArray)} {answer : a.Answer}
      (hpending : w.pending = front ++ ⟨t, .ask a next⟩ :: back)
      (hanswer : MayAnswer E w.blobs a answer) :
    Step s E w { w with
      blobs := after w.blobs a answer, pending := front ++ ⟨t, next answer⟩ :: back }
  /-- A request under way is done. -/
  | finish {w : World} (front back : List Pending) {t : Tile} {result : Except Error ByteArray}
      (hpending : w.pending = front ++ ⟨t, .done result⟩ :: back) :
    Step s E w { w with pending := front ++ back, answered := (t, result) :: w.answered }
  /-- The cache drops some of its blobs. -/
  | forget {w : World} {blobs : Blobs} (hforgets : Blobs.Forgets w.blobs blobs) :
    Step s E w { w with blobs }

/-- What can come about from an empty cache. -/
def Reachable (s : Schedule) (E : Node → Bool) : World → Prop :=
  Relation.ReflTransGen (Step s E) start

/-- Every blob and every answer given so far is right, and every request under way goes on within
the contract of the store. -/
structure Sound (s : Schedule) (E : Node → Bool) (w : World) : Prop where
  blobs : w.blobs.All (IsBlob s E)
  pending : ∀ p ∈ w.pending,
    Routine.Meets (contract s E True) (Outcome True (IsAnswer s E p.tile)) p.rest
  answered : ∀ r ∈ w.answered, Outcome True (IsAnswer s E r.1) r.2

variable {s : Schedule} {E : Node → Bool}

theorem sound_start : Sound s E start where
  blobs _ _ h := nomatch h
  pending _ h := nomatch h
  answered _ h := nomatch h

theorem MayAnswer.keeps {blobs : Blobs} {a : Action} {answer : a.Answer}
    (h : MayAnswer E blobs a answer) (hblobs : blobs.All (IsBlob s E)) :
    (contract s E True).answers a answer := by
  cases a with
  | query n => exact h
  | fetch n =>
    refine Outcome.mono ?_ h
    rintro _ rfl
    exact hblobs n
  | save n blob => cases answer <;> trivial
  | lock n => trivial
  | unlock n => trivial
  | note r => trivial

theorem all_after {blobs : Blobs} {a : Action} (answer : a.Answer)
    (hasks : (contract s E True).asks a) (hblobs : blobs.All (IsBlob s E)) :
    (after blobs a answer).All (IsBlob s E) := by
  cases a with
  | save n blob =>
    cases answer with
    | ok _ => exact hblobs.update hasks
    | error e => exact hblobs
  | _ => exact hblobs

/-- **Every step keeps the world sound.** -/
theorem Sound.step (hs : s.Valid) {w w' : World} (hstep : Step s E w w') (h : Sound s E w) :
    Sound s E w' := by
  cases hstep with
  | request t =>
    refine ⟨h.blobs, ?_, h.answered⟩
    exact List.forall_mem_cons.2 ⟨meets_get hs fun _ => trivial, h.pending⟩
  | @proceed front back t a next answer hpending hanswer =>
    have hall := h.pending
    rw [hpending, List.forall_mem_append, List.forall_mem_cons] at hall
    obtain ⟨hfront, ⟨hasks, hnext⟩, hback⟩ := hall
    have hrest := hnext answer (hanswer.keeps h.blobs)
    refine ⟨all_after answer hasks h.blobs, ?_, h.answered⟩
    exact List.forall_mem_append.2 ⟨hfront, List.forall_mem_cons.2 ⟨hrest, hback⟩⟩
  | @finish front back t result hpending =>
    have hall := h.pending
    rw [hpending, List.forall_mem_append, List.forall_mem_cons] at hall
    obtain ⟨hfront, hresult, hback⟩ := hall
    refine ⟨h.blobs, List.forall_mem_append.2 ⟨hfront, hback⟩, ?_⟩
    exact List.forall_mem_cons.2 ⟨hresult, h.answered⟩
  | forget hforgets => exact ⟨hforgets.all h.blobs, h.pending, h.answered⟩

theorem Reachable.sound (hs : s.Valid) {w : World} (h : Reachable s E w) : Sound s E w := by
  induction h with
  | refl => exact sound_start
  | tail _ hstep ih => exact ih.step hs hstep

/-! ## Sessions -/

section

variable {σ : Type} {oracle : Oracle} {cache : BlobCache (StateM σ)} {blobs : σ → Blobs}

/-- A session answers as the surroundings may, and then its cache may forget. -/
theorem mayAnswer_session (horacle : oracle.Follows E True) (hcache : cache.Keeps blobs)
    (a : Action) (session : Session σ) :
    MayAnswer E (blobs session.cache) a ((Session.answer oracle cache a).run session).1 ∧
      Blobs.Forgets
        (after (blobs session.cache) a ((Session.answer oracle cache a).run session).1)
        (blobs ((Session.answer oracle cache a).run session).2.cache) := by
  obtain ⟨c, calls, events⟩ := session
  cases a with
  | query n => exact ⟨horacle calls n, .refl _⟩
  | fetch n =>
    refine ⟨?_, hcache.get_forgets c n⟩
    show Outcome True _ ((cache.get n).run c).1
    rw [hcache.get_eq]
    exact rfl
  | save n blob =>
    refine ⟨trivial, ?_⟩
    show Blobs.Forgets (after (blobs c) (.save n blob) ((cache.put n blob).run c).1)
      (blobs ((cache.put n blob).run c).2)
    rw [hcache.put_eq]
    exact hcache.put_forgets c n blob
  | lock n => exact ⟨trivial, .refl _⟩
  | unlock n => exact ⟨trivial, .refl _⟩
  | note r => exact ⟨trivial, .refl _⟩

theorem steps_run (horacle : oracle.Follows E True)
    (hcache : cache.Keeps blobs) {t : Tile} (r : Routine (Except Error ByteArray))
    (pending : List Pending) (answered : List (Tile × Except Error ByteArray))
    (session : Session σ) :
    Relation.ReflTransGen (Step s E) ⟨blobs session.cache, ⟨t, r⟩ :: pending, answered⟩
      ⟨blobs ((r.run (Session.answer oracle cache)).run session).2.cache,
        ⟨t, .done ((r.run (Session.answer oracle cache)).run session).1⟩ :: pending, answered⟩ := by
  induction r generalizing session with
  | done result => exact .refl
  | ask a next ih =>
    obtain ⟨hanswer, hforgets⟩ := mayAnswer_session horacle hcache a session
    have hproceed : Step s E ⟨blobs session.cache, ⟨t, .ask a next⟩ :: pending, answered⟩
        ⟨after (blobs session.cache) a ((Session.answer oracle cache a).run session).1,
          ⟨t, next ((Session.answer oracle cache a).run session).1⟩ :: pending, answered⟩ :=
      .proceed [] pending rfl hanswer
    exact ((Relation.ReflTransGen.single hproceed).tail (.forget hforgets)).trans (ih _ _)

theorem Reachable.perform (horacle : oracle.Follows E True)
    (hcache : cache.Keeps blobs) {w : World} (h : Reachable s E w) (session : Session σ)
    (hblobs : w.blobs = blobs session.cache) (t : Tile) :
    Reachable s E ⟨blobs (Session.perform oracle cache (get s t) session).2.cache, w.pending,
      (t, (Session.perform oracle cache (get s t) session).1) :: w.answered⟩ := by
  have hrequest := h.tail (.request w t)
  rw [hblobs] at hrequest
  have hrun := steps_run (s := s) (t := t) horacle hcache (get s t).run w.pending w.answered session
  exact (hrequest.trans hrun).tail (.finish [] w.pending rfl)

end

end World

variable {s : Schedule} {E : Node → Bool}

theorem IsAnswer.fresh_eq (hs : s.Valid) {t : Tile} {bytes : ByteArray}
    (h : IsAnswer s E t bytes) : fresh s E t = .ok bytes := by
  obtain ⟨bytes', h', heq⟩ := exists_isAnswer hs MemoryCache.keeps h.1 h.2.1 ⟨.empty none, 0, []⟩
    (Blobs.all_of_empty (MemoryCache.held_empty none))
  rw [h.unique hs h']
  exact heq

/-- The bytes of the subtree of a rank root, as a new store gives them. -/
def freshBytes (s : Schedule) (E : Node → Bool) (t : Tile) : ByteArray :=
  match fresh s E t with
  | .ok bytes => bytes
  | .error _ => .empty

/-- The subtree that a new store gives the bytes of. -/
def freshSubtree (s : Schedule) (E : Node → Bool) (t : Tile) : Subtree :=
  match Subtree.decode (freshBytes s E t) s.subtreeLevels with
  | .ok sub => sub
  | .error _ => .empty s.subtreeLevels

theorem IsAnswer.eq_freshBytes (hs : s.Valid) {t : Tile} {bytes : ByteArray}
    (h : IsAnswer s E t bytes) : bytes = freshBytes s E t := by
  unfold freshBytes
  rw [h.fresh_eq hs]

theorem IsAnswer.decode_eq (hs : s.Valid) {t : Tile} {bytes : ByteArray}
    (h : IsAnswer s E t bytes) :
    Subtree.decode bytes s.subtreeLevels = .ok (freshSubtree s E t) := by
  rw [h.eq_freshBytes hs]
  obtain ⟨-, -, sub, hsub, heq⟩ := h.eq_freshBytes hs ▸ h
  have hdecode : Subtree.decode (freshBytes s E t) s.subtreeLevels = .ok sub := by
    rw [heq]
    exact hsub.decode_eq_ok hs
  unfold freshSubtree
  rw [hdecode]

/-- A new store answers a rank root with the bytes of its subtree. -/
theorem isAnswer_freshBytes (hs : s.Valid) {t : Tile} (hroot : s.isRankRoot t.level = true)
    (hin : inLevel t = true) : IsAnswer s E t (freshBytes s E t) := by
  obtain ⟨bytes, h, -⟩ := exists_isAnswer hs MemoryCache.keeps hroot hin ⟨.empty none, 0, []⟩
    (Blobs.all_of_empty (MemoryCache.held_empty none))
  rw [← h.eq_freshBytes hs]
  exact h

theorem isBuilt_freshSubtree (hs : s.Valid) {t : Tile} (hroot : s.isRankRoot t.level = true)
    (hin : inLevel t = true) :
    IsBuilt s E t.level t.morton.toNat s.subtreeLevels (freshSubtree s E t) := by
  have h := isAnswer_freshBytes (E := E) hs hroot hin
  have hdecode := h.decode_eq hs
  obtain ⟨-, -, sub, hsub, heq⟩ := h
  rw [heq, hsub.decode_eq_ok hs] at hdecode
  rw [← Except.ok.inj hdecode]
  exact hsub

/-- **History does not show.** Whatever was requested, failed, cached and dropped before, a request
that succeeds is answered as in a new store; and at all times the cache holds under the rank roots
the answers of a new store to their tiles, and nothing else. -/
theorem answer_eq_fresh (hs : s.Valid) (E : Node → Bool) {w : World}
    (h : World.Reachable s E w) :
    (∀ t bytes, (t, .ok bytes) ∈ w.answered → fresh s E t = .ok bytes) ∧
      ∀ n blob, w.blobs n = some blob → s.isRankRoot n.level = true ∧
        n.index.toNat < 4 ^ n.level ∧ n.tile.node = n ∧ fresh s E n.tile = .ok blob := by
  have hsound := h.sound hs
  constructor
  · intro t bytes hmem
    have hanswer : IsAnswer s E t bytes := hsound.answered _ hmem
    exact hanswer.fresh_eq hs
  · intro n blob hblob
    obtain ⟨hroot, hlt, hanswer⟩ := (hsound.blobs n blob hblob).isAnswer hs
    exact ⟨hroot, hlt, Node.node_tile hlt, hanswer.fresh_eq hs⟩

/-- The first of two requests for one tile fails at its first query, the second succeeds. -/
theorem answer_eq_fresh_after_failure : ∃ (w : World) (bytes : ByteArray),
    World.Reachable ⟨0, 0, 1, false⟩ (fun _ => true) w ∧
      w.answered = [(⟨0, 0, 0⟩, .ok bytes), (⟨0, 0, 0⟩, .error (.precondition (.stated "down")))] ∧
      fresh ⟨0, 0, 1, false⟩ (fun _ => true) ⟨0, 0, 0⟩ = .ok bytes := by
  let s : Schedule := ⟨0, 0, 1, false⟩
  let t : Tile := ⟨0, 0, 0⟩
  let E : Node → Bool := fun _ => true
  let failing := (Oracle.ofFunction E).failingAt (.precondition (.stated "down")) 0
  have hs : s.Valid := (Schedule.validate_eq_ok_iff ⟨0, 0, 1, false⟩).1 rfl
  have hfollows : (Oracle.ofFunction E).Follows E True := Oracle.follows_ofFunction E True
  have hfailing : failing.Follows E True := hfollows.failingAt _ 0
  let session := (Session.perform failing Blobs.cache (get s t) ⟨fun _ => none, 0, []⟩).2
  have hfailed : World.Reachable s E _ :=
    World.Reachable.perform hfailing Blobs.keeps .refl ⟨fun _ => none, 0, []⟩ rfl t
  obtain ⟨bytes, -, hbytes⟩ := exists_isAnswer hs Blobs.keeps (t := t) rfl rfl session
    (hfailed.sound hs).blobs
  have hdone : World.Reachable s E _ := hfailed.perform hfollows Blobs.keeps session rfl t
  have hfail : (Session.perform failing Blobs.cache (get s t) ⟨fun _ => none, 0, []⟩).1 =
      .error (.precondition (.stated "down")) := by
    subst failing s t E
    rfl
  rw [hbytes, hfail] at hdone
  exact ⟨_, bytes, hdone, rfl, (answer_eq_fresh hs E hdone).1 t bytes List.mem_cons_self⟩

end ImplicitTiling.Store
