import ImplicitTiling.Proofs.Store.Answers
import ImplicitTiling.Proofs.Store.Locking
import Mathlib.Logic.Relation

/-!
# Requests that share a cache and locks

A service holds a memory cache without bound and works on any number of requests at once. Each goes
on by one request to its surroundings at a time, in any order (`Service.Step`): a query may be
answered in any way or fail, and a lock is granted while nobody holds it.

Every step keeps the service sound (`Service.Sound.step`), so under each rank root bytes are saved at
most once (`saved_once`), and the child subtrees that they point to are cached (`cached_linked`).
-/

namespace ImplicitTiling.Store

/-- A request under way: the locks that it holds, the latest first, and what is left of it to do. -/
structure Job where
  tile : Tile
  held : List Node
  rest : Routine (Except Error ByteArray)

/-- A cache, the requests under way, what was saved so far, and the answers to the requests that are
done. The latest come first. -/
structure Service where
  cache : MemoryCache
  jobs : List Job
  saves : List (Node × ByteArray)
  answered : List (Tile × Except Error ByteArray)

/-- What a request to the surroundings may change: the cache, what was saved so far, and the locks
that the job holds. -/
structure Desk where
  cache : MemoryCache
  saves : List (Node × ByteArray)
  held : List Node

/-- How a request to the surroundings may be answered, and what it changes, while others hold the
locks `taken`. -/
inductive Desk.Serves (taken : List Node) : Desk → (a : Action) → a.Answer → Desk → Prop
  | query (d : Desk) (n : Node) (found : Except Error Bool) : Serves taken d (.query n) found d
  | fetch (d : Desk) (n : Node) :
    Serves taken d (.fetch n) (.ok (d.cache.get n).1) { d with cache := (d.cache.get n).2 }
  | save (d : Desk) (n : Node) (blob : ByteArray) :
    Serves taken d (.save n blob) (.ok ())
      { d with cache := d.cache.put n blob, saves := (n, blob) :: d.saves }
  | lock (d : Desk) (n : Node) (hfree : n ∉ d.held ++ taken) :
    Serves taken d (.lock n) () { d with held := n :: d.held }
  | unlock (d : Desk) (n : Node) : Serves taken d (.unlock n) () { d with held := d.held.erase n }
  | note (d : Desk) (r : Record) : Serves taken d (.note r) () d

namespace Service

/-- Nothing is cached and nothing was requested. -/
def start : Service :=
  ⟨.empty none, [], [], []⟩

/-- What can happen next. -/
inductive Step (s : Schedule) : Service → Service → Prop
  /-- A tile is requested. -/
  | request (v : Service) (t : Tile) :
    Step s v { v with jobs := ⟨t, [], (get s t).run⟩ :: v.jobs }
  /-- A job goes one step on. -/
  | proceed {v : Service} (front back : List Job) {t : Tile} {held : List Node} {a : Action}
      {next : a.Answer → Routine (Except Error ByteArray)} {answer : a.Answer} {d : Desk}
      (hjobs : v.jobs = front ++ ⟨t, held, .ask a next⟩ :: back)
      (hserves : Desk.Serves ((front ++ back).flatMap Job.held) ⟨v.cache, v.saves, held⟩ a answer
        d) :
    Step s v { v with
      cache := d.cache, saves := d.saves, jobs := front ++ ⟨t, d.held, next answer⟩ :: back }
  /-- A job is done. -/
  | finish {v : Service} (front back : List Job) {t : Tile} {result : Except Error ByteArray}
      (hjobs : v.jobs = front ++ ⟨t, [], .done result⟩ :: back) :
    Step s v { v with jobs := front ++ back, answered := (t, result) :: v.answered }

/-- What can come about from an empty cache. -/
def Reachable (s : Schedule) : Service → Prop :=
  Relation.ReflTransGen (Step s) start

end Service

/-! ## One request to the surroundings -/

/-- Each blob of the cache was saved, and saved once, and is linked. -/
structure Orderly (s : Schedule) (cache : MemoryCache) (saves : List (Node × ByteArray)) : Prop where
  capacity : cache.capacity = none
  nodup : (saves.map Prod.fst).Nodup
  mem_iff : ∀ n blob, (n, blob) ∈ saves ↔ cache.held n = some blob
  linked : cache.held.All (IsLinked s cache.held)

variable {s : Schedule}

theorem orderly_empty (s : Schedule) : Orderly s (.empty none) [] where
  capacity := rfl
  nodup := .nil
  mem_iff n blob := by simp [MemoryCache.held_empty]
  linked := Blobs.all_of_empty (MemoryCache.held_empty none)

theorem Orderly.get {cache : MemoryCache} {saves : List (Node × ByteArray)}
    (h : Orderly s cache saves) (n : Node) : Orderly s (cache.get n).2 saves := by
  obtain ⟨-, hheld⟩ := cache.held_get n
  exact ⟨(cache.capacity_get n).trans h.capacity, h.nodup, hheld.symm ▸ h.mem_iff,
    hheld.symm ▸ h.linked⟩

theorem Orderly.put {cache : MemoryCache} {saves : List (Node × ByteArray)}
    (h : Orderly s cache saves) {n : Node} {blob : ByteArray} (hnone : cache.held n = none)
    (hlinked : IsLinked s cache.held n blob) :
    Orderly s (cache.put n blob) ((n, blob) :: saves) := by
  have hheld := cache.held_put_of_unbounded h.capacity n blob
  have hgrows : Blobs.Grows [] _ _ := .update List.not_mem_nil hnone blob
  have hnew : n ∉ saves.map Prod.fst := by
    intro hmem
    obtain ⟨⟨n', blob'⟩, hsaved, rfl⟩ := List.mem_map.1 hmem
    have hblob := (h.mem_iff n' blob').1 hsaved
    rw [hnone] at hblob
    cases hblob
  refine ⟨MemoryCache.capacity_put_of_unbounded h.capacity n blob,
    List.nodup_cons.2 ⟨hnew, h.nodup⟩, fun n' blob' => ?_, ?_⟩
  · rw [hheld, List.mem_cons, h.mem_iff]
    by_cases hn : n' = n
    · subst hn
      simp [hnone, eq_comm]
    · simp [hn]
  · rw [hheld]
    exact Blobs.All.update (fun n' blob' hblob' => (h.linked n' blob' hblob').mono hgrows.kept)
      (hlinked.mono hgrows.kept)

namespace Desk

/-- What a job knows at its desk. -/
def standing (d : Desk) : Standing :=
  ⟨d.held, d.cache.held⟩

variable {taken : List Node} {d d' : Desk} {a : Action} {answer : a.Answer}

theorem Serves.answers (hserves : Serves taken d a answer d') (h : Orderly s d.cache d.saves)
    (hasks : (locking s).Asks d.standing a) :
    (locking s).Answers d.standing a answer d'.standing ∧ Orderly s d'.cache d'.saves := by
  cases hserves with
  | query n => exact ⟨rfl, h⟩
  | fetch n =>
    obtain ⟨hfound, hheld⟩ := d.cache.held_get n
    refine ⟨⟨?_, congrArg Except.ok hfound, h.linked n⟩, h.get n⟩
    exact congrArg (Standing.mk d.held) hheld
  | save n blob =>
    obtain ⟨-, hnone, hlinked⟩ := hasks
    refine ⟨?_, h.put hnone hlinked⟩
    exact congrArg (Standing.mk d.held) (d.cache.held_put_of_unbounded h.capacity n blob)
  | lock n => exact ⟨rfl, h⟩
  | unlock n => exact ⟨rfl, h⟩
  | note r => exact ⟨rfl, h⟩

theorem Serves.grows (hserves : Serves taken d a answer d') (h : Orderly s d.cache d.saves)
    (hasks : (locking s).Asks d.standing a) {own : List Node} (hown : ∀ n ∈ d.held, n ∉ own) :
    Blobs.Grows own d.cache.held d'.cache.held := by
  cases hserves with
  | fetch n =>
    show Blobs.Grows own d.cache.held (d.cache.get n).2.held
    rw [(d.cache.held_get n).2]
    exact .refl _ _
  | save n blob =>
    obtain ⟨hn, hnone, -⟩ := hasks
    show Blobs.Grows own d.cache.held (d.cache.put n blob).held
    rw [d.cache.held_put_of_unbounded h.capacity]
    exact .update (hown n hn) hnone blob
  | query n => exact .refl _ _
  | lock n => exact .refl _ _
  | unlock n => exact .refl _ _
  | note r => exact .refl _ _

theorem Serves.nodup (hserves : Serves taken d a answer d') (h : (d.held ++ taken).Nodup) :
    (d'.held ++ taken).Nodup := by
  cases hserves with
  | lock n hfree => exact List.nodup_cons.2 ⟨hfree, h⟩
  | unlock n => exact h.sublist (List.erase_sublist.append_right taken)
  | query n => exact h
  | fetch n => exact h
  | save n blob => exact h
  | note r => exact h

end Desk

/-! ## Services -/

/-- A job keeps to the protocol, and gives its locks back; when it succeeds, its bytes are cached. -/
def Job.Keeps (s : Schedule) (cache : MemoryCache) (j : Job) : Prop :=
  j.rest.Keeps (locking s)
    (fun r k => k.held = [] ∧ ∀ bytes, r = .ok bytes → k.blobs j.tile.node = some bytes)
    ⟨j.held, cache.held⟩

theorem Job.keeps_get (hs : s.Valid) (hreload : s.reload = false) (t : Tile) (cache : MemoryCache) :
    Job.Keeps s cache ⟨t, [], (get s t).run⟩ :=
  Routine.Keeps.mono (keeps_get_locking hs hreload t cache.held) fun _ _ hr => ⟨hr.1.1, hr.2⟩

theorem Job.Keeps.later {cache cache' : MemoryCache} {j : Job} (h : j.Keeps s cache)
    (hgrows : Blobs.Grows j.held cache.held cache'.held) : j.Keeps s cache' :=
  Routine.Keeps.later h ⟨rfl, hgrows⟩

theorem nodup_held_iff (front back : List Job) (j : Job) :
    ((front ++ j :: back).flatMap Job.held).Nodup ↔
      (j.held ++ (front ++ back).flatMap Job.held).Nodup := by
  rw [List.flatMap_append, List.flatMap_cons, List.flatMap_append]
  exact (List.perm_append_comm_assoc _ _ _).nodup_iff

namespace Service

/-- The cache is orderly, no two jobs hold one lock, every job keeps to the protocol, and the bytes of
every success are cached. -/
structure Sound (s : Schedule) (v : Service) : Prop where
  orderly : Orderly s v.cache v.saves
  nodup : (v.jobs.flatMap Job.held).Nodup
  jobs : ∀ j ∈ v.jobs, j.Keeps s v.cache
  answered : ∀ t bytes, (t, .ok bytes) ∈ v.answered → v.cache.held t.node = some bytes

theorem sound_start (s : Schedule) : Sound s start where
  orderly := orderly_empty s
  nodup := .nil
  jobs _ h := nomatch h
  answered _ _ h := nomatch h

/-- A sound service goes on soundly, and its cache grows. -/
theorem Sound.step (hs : s.Valid) (hreload : s.reload = false) {v v' : Service}
    (hstep : Step s v v') (h : Sound s v) :
    Sound s v' ∧ Blobs.Grows [] v.cache.held v'.cache.held := by
  cases hstep with
  | request t =>
    refine ⟨⟨h.orderly, h.nodup, ?_, h.answered⟩, .refl _ _⟩
    exact List.forall_mem_cons.2 ⟨Job.keeps_get hs hreload t v.cache, h.jobs⟩
  | @proceed front back t held a next answer d hjobs hserves =>
    have hall := h.jobs
    have hnodup := h.nodup
    rw [hjobs, List.forall_mem_append, List.forall_mem_cons] at hall
    rw [hjobs, nodup_held_iff] at hnodup
    obtain ⟨hfront, hjob, hback⟩ := hall
    obtain ⟨hasks, hnext⟩ := hjob _ ((locking s).refl _)
    obtain ⟨hanswers, horderly⟩ := hserves.answers h.orderly hasks
    -- whoever waits holds other locks than the job that goes on
    have hothers : ∀ j ∈ front ++ back, j.Keeps s d.cache := by
      intro j hj
      have hkeeps := List.forall_mem_append.2 ⟨hfront, hback⟩ j hj
      refine hkeeps.later (hserves.grows h.orderly hasks fun n hn hn' => ?_)
      exact (List.nodup_append.1 hnodup).2.2 n hn n (List.mem_flatMap.2 ⟨j, hj, hn'⟩) rfl
    obtain ⟨hfront, hback⟩ := List.forall_mem_append.1 hothers
    have hgrows : Blobs.Grows [] v.cache.held d.cache.held :=
      hserves.grows h.orderly hasks fun _ _ => List.not_mem_nil
    refine ⟨⟨horderly, ?_, ?_, ?_⟩, hgrows⟩
    · exact (nodup_held_iff front back _).2 (hserves.nodup hnodup)
    · exact List.forall_mem_append.2
        ⟨hfront, List.forall_mem_cons.2 ⟨hnext answer _ hanswers, hback⟩⟩
    · exact fun t bytes hmem => hgrows.kept _ _ (h.answered t bytes hmem)
  | @finish front back t result hjobs =>
    have hall := h.jobs
    have hnodup := h.nodup
    rw [hjobs, List.forall_mem_append, List.forall_mem_cons] at hall
    rw [hjobs, nodup_held_iff] at hnodup
    obtain ⟨hfront, hjob, hback⟩ := hall
    obtain ⟨-, hcached⟩ := hjob _ ((locking s).refl _)
    refine ⟨⟨h.orderly, hnodup, List.forall_mem_append.2 ⟨hfront, hback⟩, ?_⟩, .refl _ _⟩
    intro t' bytes hmem
    rcases List.mem_cons.1 hmem with heq | hmem
    · cases heq
      exact hcached bytes rfl
    · exact h.answered t' bytes hmem

theorem Sound.steps (hs : s.Valid) (hreload : s.reload = false) {v v' : Service}
    (hsteps : Relation.ReflTransGen (Step s) v v') (h : Sound s v) :
    Sound s v' ∧ Blobs.Grows [] v.cache.held v'.cache.held := by
  induction hsteps with
  | refl => exact ⟨h, .refl _ _⟩
  | tail _ hstep ih =>
    obtain ⟨hsound, hgrows⟩ := ih.1.step hs hreload hstep
    exact ⟨hsound, ih.2.trans hgrows⟩

theorem Reachable.sound (hs : s.Valid) (hreload : s.reload = false) {v : Service}
    (h : Reachable s v) : Sound s v :=
  ((sound_start s).steps hs hreload h).1

/-! ## Sessions -/

theorem serves_session (oracle : Oracle) (saves : List (Node × ByteArray)) (held taken : List Node)
    {a : Action} (hlock : ∀ n, a = .lock n → n ∉ held ++ taken) (session : Session MemoryCache) :
    ∃ saves' held', Desk.Serves taken ⟨session.cache, saves, held⟩ a
      ((Session.answer oracle MemoryCache.cache a).run session).1
      ⟨((Session.answer oracle MemoryCache.cache a).run session).2.cache, saves', held'⟩ := by
  obtain ⟨c, calls, events⟩ := session
  cases a with
  | query n => exact ⟨_, _, .query _ n _⟩
  | fetch n => exact ⟨_, _, .fetch _ n⟩
  | save n blob => exact ⟨_, _, .save _ n blob⟩
  | lock n => exact ⟨_, _, .lock _ n (hlock n rfl)⟩
  | unlock n => exact ⟨_, _, .unlock _ n⟩
  | note r => exact ⟨_, _, .note _ r⟩

theorem steps_run (hs : s.Valid) (hreload : s.reload = false) (oracle : Oracle) {jobs : List Job}
    (hfree : jobs.flatMap Job.held = []) {t : Tile} (r : Routine (Except Error ByteArray))
    {saves : List (Node × ByteArray)} {held : List Node}
    {answered : List (Tile × Except Error ByteArray)} (session : Session MemoryCache)
    (h : Sound s ⟨session.cache, ⟨t, held, r⟩ :: jobs, saves, answered⟩) :
    ∃ saves', Relation.ReflTransGen (Step s)
      ⟨session.cache, ⟨t, held, r⟩ :: jobs, saves, answered⟩
      ⟨((r.run (Session.answer oracle MemoryCache.cache)).run session).2.cache,
        ⟨t, [], .done ((r.run (Session.answer oracle MemoryCache.cache)).run session).1⟩ :: jobs,
        saves', answered⟩ := by
  induction r generalizing saves held session with
  | done result =>
    obtain ⟨hjob, -⟩ := List.forall_mem_cons.1 h.jobs
    obtain ⟨rfl, -⟩ := hjob _ ((locking s).refl _)
    exact ⟨saves, .refl⟩
  | ask a next ih =>
    obtain ⟨hjob, -⟩ := List.forall_mem_cons.1 h.jobs
    obtain ⟨hasks, -⟩ := hjob _ ((locking s).refl _)
    have hlock (n : Node) (ha : a = .lock n) :
        n ∉ held ++ (([] : List Job) ++ jobs).flatMap Job.held := by
      subst ha
      rw [List.nil_append, hfree, List.append_nil]
      exact fun hn => Nat.lt_irrefl _ (hasks n hn)
    obtain ⟨saves', held', hserves⟩ := serves_session oracle saves held _ hlock session
    have hstep := Step.proceed (s := s) (v := ⟨session.cache, ⟨t, held, .ask a next⟩ :: jobs, saves,
      answered⟩) [] jobs rfl hserves
    obtain ⟨saves'', hsteps⟩ := ih _ _ (h.step hs hreload hstep).1
    exact ⟨saves'', .head hstep hsteps⟩

/-- What a session does for a request is a part of what a service does, also while other requests
wait. -/
theorem Reachable.perform (hs : s.Valid) (hreload : s.reload = false) (oracle : Oracle)
    {jobs : List Job} (hfree : jobs.flatMap Job.held = []) {t : Tile}
    {saves : List (Node × ByteArray)} {answered : List (Tile × Except Error ByteArray)}
    (session : Session MemoryCache)
    (h : Reachable s ⟨session.cache, ⟨t, [], (get s t).run⟩ :: jobs, saves, answered⟩) :
    ∃ saves', Reachable s
      ⟨(Session.perform oracle MemoryCache.cache (get s t) session).2.cache, jobs, saves',
        (t, (Session.perform oracle MemoryCache.cache (get s t) session).1) :: answered⟩ := by
  obtain ⟨saves', hsteps⟩ :=
    steps_run hs hreload oracle hfree (get s t).run session (h.sound hs hreload)
  exact ⟨saves', (h.trans hsteps).tail (.finish [] jobs rfl)⟩

end Service

/-! ## What the cache holds -/

/-- **Saved once.** However requests take turns and whatever the oracle answers, bytes are saved under
a rank root at most once and stay there, and all requests for it that succeed are answered with
them. -/
theorem saved_once (hs : s.Valid) (hreload : s.reload = false) {v : Service}
    (h : Service.Reachable s v) :
    (v.saves.map Prod.fst).Nodup ∧
      (∀ n blob, (n, blob) ∈ v.saves ↔ v.cache.held n = some blob) ∧
      (∀ v', Relation.ReflTransGen (Service.Step s) v v' →
        ∀ n blob, v.cache.held n = some blob → v'.cache.held n = some blob) ∧
      ∀ t bytes, (t, .ok bytes) ∈ v.answered → (t.node, bytes) ∈ v.saves ∧
        ∀ bytes', (t, .ok bytes') ∈ v.answered → bytes' = bytes := by
  have hsound := h.sound hs hreload
  refine ⟨hsound.orderly.nodup, hsound.orderly.mem_iff, ?_, ?_⟩
  · exact fun v' hsteps => (hsound.steps hs hreload hsteps).2.kept
  · intro t bytes hmem
    have hbytes := hsound.answered t bytes hmem
    refine ⟨(hsound.orderly.mem_iff _ _).2 hbytes, fun bytes' hmem' => ?_⟩
    exact Option.some.inj ((hsound.answered t bytes' hmem').symm.trans hbytes)

/-- Two requests for the one tile of the only level are under way at once, and one of them is done
first. -/
theorem saved_once_two_requests : ∃ (v : Service) (bytes : ByteArray),
    Service.Reachable ⟨0, 0, 1, false⟩ v ∧
      v.answered = [(⟨0, 0, 0⟩, .ok bytes), (⟨0, 0, 0⟩, .ok bytes)] ∧
      (⟨0, 0⟩, bytes) ∈ v.saves ∧ (v.saves.map Prod.fst).Nodup := by
  let s : Schedule := ⟨0, 0, 1, false⟩
  let t : Tile := ⟨0, 0, 0⟩
  let E : Node → Bool := fun _ => true
  have hs : s.Valid := (Schedule.validate_eq_ok_iff ⟨0, 0, 1, false⟩).1 rfl
  have hfollows : (Oracle.ofFunction E).Follows E True := Oracle.follows_ofFunction E True
  let first : Session MemoryCache := ⟨.empty none, 0, []⟩
  have hblobs : first.cache.held.All (IsBlob s E) :=
    Blobs.all_of_empty (MemoryCache.held_empty none)
  let second := (Session.perform (.ofFunction E) MemoryCache.cache (get s t) first).2
  have hblobs' : second.cache.held.All (IsBlob s E) :=
    (Routine.Meets.run (answer_keeps hfollows MemoryCache.keeps) (meets_get hs fun _ => trivial)
      hblobs).2
  obtain ⟨bytes, -, hfirst⟩ := exists_isAnswer hs MemoryCache.keeps (t := t) rfl rfl first hblobs
  obtain ⟨bytes', -, hsecond⟩ :=
    exists_isAnswer hs MemoryCache.keeps (t := t) rfl rfl second hblobs'
  have hboth : Service.Reachable s ⟨.empty none, _, [], []⟩ :=
    .tail (.tail .refl (.request _ t)) (.request _ t)
  obtain ⟨saves, hone⟩ := Service.Reachable.perform hs rfl (.ofFunction E) rfl first hboth
  obtain ⟨saves', hdone⟩ := Service.Reachable.perform hs rfl (.ofFunction E) rfl second hone
  rw [hfirst, hsecond] at hdone
  obtain ⟨hnodup, -, -, hanswered⟩ := saved_once hs rfl hdone
  obtain ⟨hmem, hunique⟩ := hanswered t bytes (.tail _ (.head _))
  obtain rfl := hunique bytes' (.head _)
  have hnode : t.node = ⟨0, 0⟩ := by decide
  exact ⟨_, bytes', hdone, rfl, hnode ▸ hmem, hnodup⟩

/-- **No child subtree is missing.** However requests take turns and whatever the oracle answers, at
all times the cached bytes decode, and each child subtree that they point to is cached and has its
root. -/
theorem cached_linked (hs : s.Valid) (hreload : s.reload = false) {v : Service}
    (h : Service.Reachable s v) {n : Node} {blob : ByteArray}
    (hblob : v.cache.held n = some blob) :
    ∃ sub, Subtree.decode blob s.subtreeLevels = .ok sub ∧
      ∀ c < 4 ^ s.subtreeLevels, (sub.children.row 0).get c = true →
        ∃ (child : Node) (blob' : ByteArray) (sub' : Subtree),
          child.level = n.level + s.subtreeLevels ∧
          child.index.toNat = 4 ^ s.subtreeLevels * n.index.toNat + c ∧
          v.cache.held child = some blob' ∧
          Subtree.decode blob' s.subtreeLevels = .ok sub' ∧ (sub'.tiles.row 0).get 0 = true := by
  have hlinked := (h.sound hs hreload).orderly.linked n blob hblob
  obtain ⟨sub, hsub, hbelow⟩ := hlinked.decodes
  refine ⟨sub, hsub, fun c hc hset => ?_⟩
  obtain ⟨below, ⟨blob', hblob', hdecode⟩, havailable⟩ := hbelow c hc hset
  obtain ⟨-, hle⟩ := hs.isRankRoot_iff.1 hlinked.isRankRoot
  have hmax := hs.max_lt
  have hlast := hs.maxRankRoot_add
  have hlt := Nat.lt_of_lt_of_le (Node.descendant_lt hlinked.index_lt hc)
    (Node.four_pow_le_word (by omega))
  exact ⟨_, blob', below, rfl, Node.toNat_toUInt64 hlt, hblob', hdecode, havailable⟩

/-- Two ranks of one level each, above a single tile in the third quadrant. -/
theorem cached_linked_third_quadrant : ∃ (v : Service) (blob : ByteArray) (sub sub' : Subtree),
    Service.Reachable ⟨0, 1, 1, false⟩ v ∧ v.cache.held ⟨1, 2⟩ = some blob ∧
      v.answered = [(⟨0, 0, 0⟩, .ok sub.encode)] ∧ (sub.children.row 0).get 2 = true ∧
      Subtree.decode blob 1 = .ok sub' ∧ (sub'.tiles.row 0).get 0 = true := by
  let s : Schedule := ⟨0, 1, 1, false⟩
  let t : Tile := ⟨0, 0, 0⟩
  let E : Node → Bool := fun n => n.level == 0 || n.index == 2
  have hs : s.Valid := (Schedule.validate_eq_ok_iff ⟨0, 1, 1, false⟩).1 rfl
  let session : Session MemoryCache := ⟨.empty none, 0, []⟩
  obtain ⟨_, ⟨-, -, sub, hbuilt, rfl⟩, hget⟩ :=
    exists_isAnswer (E := E) hs MemoryCache.keeps (t := t) rfl rfl session
      (Blobs.all_of_empty (MemoryCache.held_empty none))
  have hrequest : Service.Reachable s ⟨.empty none, _, [], []⟩ := .single (.request _ t)
  obtain ⟨saves, hdone⟩ := Service.Reachable.perform hs rfl (.ofFunction E) rfl session hrequest
  rw [hget] at hdone
  have hblob := (hdone.sound hs rfl).answered t sub.encode (.head _)
  obtain ⟨sub₀, hsub₀, hchild⟩ := cached_linked hs rfl hdone hblob
  obtain rfl : sub = sub₀ := Except.ok.inj ((hbuilt.decode_eq_ok hs).symm.trans hsub₀)
  have hset : (sub.children.row 0).get 2 = true := (hbuilt.child 2 (by decide)).2 (by decide)
  obtain ⟨child, blob, sub', hlevel, hindex, hheld, hsub', hroot⟩ := hchild 2 (by decide) hset
  obtain rfl : child = ⟨1, 2⟩ := by
    obtain ⟨level, index⟩ := child
    have hnode : t.node.index.toNat = 0 := by decide
    rw [hnode] at hindex
    obtain rfl : level = 1 := hlevel
    obtain rfl : index = 2 := UInt64.toNat_inj.1 hindex
    rfl
  exact ⟨_, blob, sub, sub', hdone, hheld, rfl, hset, hsub', hroot⟩

end ImplicitTiling.Store
