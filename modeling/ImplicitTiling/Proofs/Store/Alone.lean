import ImplicitTiling.Proofs.Store.Answers
import ImplicitTiling.Proofs.Store.Protocol

/-!
# Routines that run alone

Where nobody else is at work, the oracle answers one function of the tile and the cache drops
nothing, what a routine does is determined: which tiles it asks for, in which order, and what the
cache holds in the end. `Build.Does` says both, with one rule for each way to compose routines, and
`Build.Does.perform` carries it over to sessions. `Saves` says of the cache that some blobs were
saved and that nothing else changed.
-/

namespace ImplicitTiling

/-- The tile that was asked for. -/
def Event.query? : Event → Option Node
  | .queried n _ => some n
  | _ => none

/-- The tiles that were asked for, the first one first, in a list of events that begins with the
latest. -/
def queried (events : List Event) : List Node :=
  (events.filterMap Event.query?).reverse

/-- What the cache holds, and the tiles that were asked for so far. -/
structure Progress where
  blobs : Blobs
  asked : List Node

/-- Nobody else is at work. The oracle answers the function `E` of the tile, and the cache drops
nothing. -/
def alone (E : Node → Bool) : Protocol Progress where
  Meanwhile p p' := p' = p
  refl _ := rfl
  trans h h' := h'.trans h
  Asks _ _ := True
  Answers p
    | .query n, found, p' => found = .ok (E n) ∧ p' = ⟨p.blobs, p.asked ++ [n]⟩
    | .fetch n, found, p' => found = .ok (p.blobs n) ∧ p' = p
    | .save n blob, done, p' =>
      done = .ok () ∧ p' = ⟨Function.update p.blobs n (some blob), p.asked⟩
    | .lock _, _, p' => p' = p
    | .unlock _, _, p' => p' = p
    | .note _, _, p' => p' = p

namespace Build

variable {α β : Type} {E : Node → Bool} {before : Blobs} {queries queries' : List Node}
  {post : α → Blobs → Prop} {post' : β → Blobs → Prop}

/-- Alone, the routine succeeds; it asks for exactly these tiles, in this order, and `post` holds of
its value and of what the cache holds then. -/
def Does (E : Node → Bool) (before : Blobs) (queries : List Node) (post : α → Blobs → Prop)
    (b : Build α) : Prop :=
  ∀ asked, b.run.Keeps (alone E)
    (fun r p => ∃ a, r = .ok a ∧ p.asked = asked ++ queries ∧ post a p.blobs) ⟨before, asked⟩

theorem Does.pure {a : α} (h : post a before) : Does E before [] post (pure a) := by
  rintro asked _ rfl
  exact ⟨a, rfl, (List.append_nil asked).symm, h⟩

theorem Does.bind {b : Build α} (h : Does E before queries post b) {f : α → Build β}
    (hf : ∀ a after, post a after → Does E after queries' post' (f a)) :
    Does E before (queries ++ queries') post' (b >>= f) := by
  intro asked
  apply Routine.Keeps.bind (h asked)
  rintro _ ⟨after, asked'⟩ ⟨a, rfl, rfl, ha⟩
  have hrest := hf a after ha (asked ++ queries)
  simp only [List.append_assoc] at hrest
  exact hrest

/-- What follows asks for no tile. -/
theorem Does.bind_quiet {b : Build α} (h : Does E before queries post b) {f : α → Build β}
    (hf : ∀ a after, post a after → Does E after [] post' (f a)) :
    Does E before queries post' (b >>= f) :=
  List.append_nil queries ▸ h.bind hf

theorem Does.mono {post' : α → Blobs → Prop} {b : Build α} (h : Does E before queries post b)
    (hpost : ∀ a after, post a after → post' a after) : Does E before queries post' b := by
  intro asked
  refine (h asked).mono ?_
  rintro r p ⟨a, hr, hasked, ha⟩
  exact ⟨a, hr, hasked, hpost a p.blobs ha⟩

theorem does_query (n : Node) :
    Does E before [n] (fun found after => found = E n ∧ after = before) (query n) := by
  rintro asked _ rfl
  refine ⟨trivial, ?_⟩
  rintro _ _ ⟨rfl, rfl⟩ _ rfl
  exact ⟨E n, rfl, rfl, rfl, rfl⟩

theorem does_fetch (n : Node) :
    Does E before [] (fun found after => found = before n ∧ after = before) (fetch n) := by
  rintro asked _ rfl
  refine ⟨trivial, ?_⟩
  rintro _ _ ⟨rfl, rfl⟩ _ rfl
  exact ⟨before n, rfl, (List.append_nil asked).symm, rfl, rfl⟩

theorem does_save (n : Node) (blob : ByteArray) :
    Does E before [] (fun _ after => after = Function.update before n (some blob))
      (save n blob) := by
  rintro asked _ rfl
  refine ⟨trivial, ?_⟩
  rintro _ _ ⟨rfl, rfl⟩ _ rfl
  exact ⟨(), rfl, (List.append_nil asked).symm, rfl⟩

theorem does_note (r : Record) : Does E before [] (fun _ after => after = before) (note r) := by
  rintro asked _ rfl
  refine ⟨trivial, ?_⟩
  rintro _ _ rfl _ rfl
  exact ⟨(), rfl, (List.append_nil asked).symm, rfl⟩

theorem Does.check {r : Except Precondition α} {a : α} (hr : r = .ok a) (h : post a before) :
    Does E before [] post (check r) := by
  subst hr
  exact .pure h

theorem Does.check_eq {r : Except Precondition α} {a : α} (hr : r = .ok a) :
    Does E before [] (fun a' after => a' = a ∧ after = before) (Build.check r) :=
  .check hr ⟨rfl, rfl⟩

theorem Does.withLock {n : Node} {body : Build α} (h : Does E before queries post body) :
    Does E before queries post (withLock n body) := by
  rintro asked _ rfl
  refine ⟨trivial, ?_⟩
  rintro _ _ rfl
  apply Routine.Keeps.bind (h asked)
  rintro r p hr _ rfl
  refine ⟨trivial, ?_⟩
  rintro _ _ rfl _ rfl
  exact hr

/-- A loop that asks for one tile in each round. -/
theorem Does.foldlM {ι : Type} {f : α → ι → Build α} {tile : ι → Node} (inv : α → Prop)
    {items : List ι} (hf : ∀ i a, inv a →
      Does E before [tile i] (fun a' after => inv a' ∧ after = before) (f a i))
    {a : α} (ha : inv a) : Does E before (items.map tile)
      (fun a' after => inv a' ∧ after = before) (items.foldlM f a) := by
  induction items generalizing a with
  | nil => exact .pure ⟨ha, rfl⟩
  | cons i items ih =>
    rw [List.foldlM_cons]
    refine (hf i a ha).bind ?_
    rintro a' after ⟨ha', rfl⟩
    exact ih ha'

theorem queried_cons_query (n : Node) (found : Except Error Bool) (events : List Event) :
    queried (.queried n found :: events) = queried events ++ [n] :=
  List.reverse_cons

section

variable {σ : Type} {cache : BlobCache (StateM σ)} {blobs : σ → Blobs} {ample : σ → Prop}

/-- A session with a cache that drops nothing is alone. -/
theorem answer_alone (hcache : cache.Lossless blobs ample) {earlier : List Node} (a : Action)
    (p : Progress) (session : Session σ) (_ : (alone E).Asks p a)
    (h : ample session.cache ∧ blobs session.cache = p.blobs ∧
      queried session.events = earlier ++ p.asked) :
    ∃ p', (alone E).Answers p a ((Session.answer (.ofFunction E) cache a).run session).1 p' ∧
      ample ((Session.answer (.ofFunction E) cache a).run session).2.cache ∧
      blobs ((Session.answer (.ofFunction E) cache a).run session).2.cache = p'.blobs ∧
      queried ((Session.answer (.ofFunction E) cache a).run session).2.events =
        earlier ++ p'.asked := by
  obtain ⟨_, asked⟩ := p
  obtain ⟨c, calls, events⟩ := session
  obtain ⟨hc, rfl, hasked⟩ := h
  cases a with
  | query n =>
    refine ⟨_, ⟨rfl, rfl⟩, hc, rfl, ?_⟩
    exact (queried_cons_query n _ events).trans (by rw [hasked, List.append_assoc])
  | fetch n =>
    exact ⟨_, ⟨hcache.get_eq c n, rfl⟩, hcache.ample_get c n hc, hcache.blobs_get c n hc, hasked⟩
  | save n blob =>
    exact ⟨_, ⟨hcache.put_eq c n blob, rfl⟩, hcache.ample_put c n blob hc,
      hcache.blobs_put c n blob hc, hasked⟩
  | lock n => exact ⟨_, rfl, hc, rfl, hasked⟩
  | unlock n => exact ⟨_, rfl, hc, rfl, hasked⟩
  | note r => exact ⟨_, rfl, hc, rfl, hasked⟩

/-- Alone, a session ends as the routine does. -/
theorem Does.perform (hcache : cache.Lossless blobs ample) {b : Build α} {session : Session σ}
    (hample : ample session.cache) (h : Does E (blobs session.cache) queries post b) :
    ∃ a after, Session.perform (.ofFunction E) cache b session = (.ok a, after) ∧
      queried after.events = queried session.events ++ queries ∧
      ample after.cache ∧ post a (blobs after.cache) := by
  obtain ⟨p, ⟨a, hresult, hasked, hpost⟩, hample', hblobs, hqueried⟩ :=
    (h []).run (fun p (after : Session σ) => ample after.cache ∧ blobs after.cache = p.blobs ∧
      queried after.events = queried session.events ++ p.asked) (answer_alone hcache)
      ⟨hample, rfl, (List.append_nil _).symm⟩
  rw [hasked, List.nil_append] at hqueried
  rw [← hblobs] at hpost
  exact ⟨a, _, Prod.ext hresult rfl, hqueried, hample', hpost⟩

end

end Build

namespace Store

/-! ## What is saved -/

/-- The cache holds bytes for the rank root, and they decode. -/
def served (s : Schedule) (blobs : Blobs) (n : Node) : Bool :=
  (blobs n).any fun blob => (Subtree.decode blob s.subtreeLevels).isOk

/-- Bytes that decode were saved for these rank roots, and nothing else changed. -/
structure Saves (s : Schedule) (before after : Blobs) (nodes : List Node) : Prop where
  kept : ∀ n ∉ nodes, after n = before n
  served : ∀ n ∈ nodes, served s after n = true

variable {s : Schedule} {before middle after : Blobs} {nodes nodes' : List Node} {n : Node}

theorem served_of_decode {blob : ByteArray} {sub : Subtree} (hblob : before n = some blob)
    (hsub : Subtree.decode blob s.subtreeLevels = .ok sub) : Store.served s before n = true := by
  unfold Store.served
  rw [hblob, Option.any_some, hsub]
  rfl

theorem not_served_of_decode {blob : ByteArray} {cause : Error} (hblob : before n = some blob)
    (hcause : Subtree.decode blob s.subtreeLevels = .error cause) :
    Store.served s before n = false := by
  unfold Store.served
  rw [hblob, Option.any_some, hcause]
  rfl

theorem not_served_of_none (h : before n = none) : Store.served s before n = false := by
  unfold Store.served
  rw [h]
  rfl

theorem Saves.refl (blobs : Blobs) : Saves s blobs blobs [] :=
  ⟨fun _ _ => rfl, fun _ h => nomatch h⟩

theorem served_congr (h : after n = before n) :
    Store.served s after n = Store.served s before n := by
  unfold Store.served
  rw [h]

theorem Saves.trans (h : Saves s before middle nodes) (h' : Saves s middle after nodes') :
    Saves s before after (nodes ++ nodes') := by
  constructor
  · intro n hn
    rw [List.mem_append, not_or] at hn
    exact (h'.kept n hn.2).trans (h.kept n hn.1)
  · intro n hn
    by_cases hn' : n ∈ nodes'
    · exact h'.served n hn'
    · rw [served_congr (h'.kept n hn')]
      exact h.served n ((List.mem_append.1 hn).resolve_right hn')

theorem Saves.update {blob : ByteArray} {sub : Subtree}
    (hblob : Subtree.decode blob s.subtreeLevels = .ok sub) :
    Saves s before (Function.update before n (some blob)) [n] := by
  constructor
  · intro n' hn'
    rw [List.mem_singleton] at hn'
    exact Function.update_of_ne hn' _ _
  · intro n' hn'
    obtain rfl := List.mem_singleton.1 hn'
    exact served_of_decode (Function.update_self n' _ _) hblob

/-- One routine after another, each of which finds what it needs: what the earlier ones saved does
not matter to it. -/
theorem does_mapM {α ι : Type} {E : Node → Bool} {f : ι → Build α} {queries saved : ι → List Node}
    (ready : ι → Blobs → Prop) {post : α → Prop} {items : List ι}
    (hapart : items.Pairwise fun i j => ∀ before after, Saves s before after (saved i) →
      ready j before → ready j after)
    (hf : ∀ i ∈ items, ∀ before, ready i before → Build.Does E before (queries i)
      (fun a after => post a ∧ Saves s before after (saved i)) (f i))
    (hready : ∀ i ∈ items, ready i before) :
    Build.Does E before (items.flatMap queries) (fun values after =>
      values.length = items.length ∧ (∀ a ∈ values, post a) ∧
        Saves s before after (items.flatMap saved)) (items.mapM f) := by
  induction items generalizing before with
  | nil => exact .pure (α := List α) ⟨rfl, List.forall_mem_nil _, Saves.refl before⟩
  | cons i items ih =>
    obtain ⟨hi, hitems⟩ := List.pairwise_cons.1 hapart
    obtain ⟨hf, hfs⟩ := List.forall_mem_cons.1 hf
    obtain ⟨hready, hreadys⟩ := List.forall_mem_cons.1 hready
    rw [List.mapM_cons]
    refine (hf before hready).bind ?_
    rintro a middle ⟨ha, hsaves⟩
    refine (ih hitems hfs fun j hj => hi j hj before middle hsaves (hreadys j hj)).bind_quiet ?_
    rintro values after ⟨hlength, hvalues, hsaves'⟩
    exact .pure ⟨congrArg (· + 1) hlength, List.forall_mem_cons.2 ⟨ha, hvalues⟩,
      hsaves.trans hsaves'⟩

end Store

end ImplicitTiling
