import ImplicitTiling.Loader.Run
import ImplicitTiling.Proofs.Store.Protocol

/-!
# Locks are nested downwards

A request takes the lock of a rank root only on levels below those of all locks that it holds, and
gives back the lock that it took last (`nests_get`). This rests on nothing but the levels of the rank
roots that it comes to, so it is the same for every schedule and whatever the oracle and the cache
answer.
-/

namespace ImplicitTiling.Store

open Build
open RunningBuild (heldAfter)

/-- Every request may be answered in every way. Locks are taken downwards, and the one that was taken
last is given back first. -/
def nesting : Protocol (List Node) where
  Meanwhile held held' := held' = held
  refl _ := rfl
  trans h h' := h'.trans h
  Asks
    | held, .lock n => ∀ m ∈ held, m.level < n.level
    | held, .unlock n => ∃ outer, held = n :: outer
    | _, _ => True
  Answers held a _ held' := held' = heldAfter held a

/-- Where all locks that are held lie above a level, the routine keeps to the nesting and gives back
what it takes. -/
def Nests {α : Type} (level : Nat) (b : Build α) : Prop :=
  ∀ held : List Node, (∀ m ∈ held, m.level < level) →
    b.run.Keeps nesting (fun _ held' => held' = held) held

variable {α β : Type} {level : Nat}

/-! ## Composed routines -/

theorem nests_done (r : Except Error α) : Nests level (.mk (.done r)) :=
  fun _ _ _ h => h

theorem Nests.mono {upper : Nat} {b : Build α} (h : Nests upper b) (hle : level ≤ upper) :
    Nests level b :=
  fun held hheld => h held fun m hm => Nat.lt_of_lt_of_le (hheld m hm) hle

theorem Nests.bind {b : Build α} {f : α → Build β} (h : Nests level b)
    (hf : ∀ a, Nests level (f a)) : Nests level (b >>= f) := by
  intro held hheld
  apply Routine.Keeps.bind (h held hheld)
  rintro r _ rfl
  cases r with
  | ok a => exact hf a _ hheld
  | error e => exact fun _ h => h

/-- A single request that has nothing to do with locks. -/
theorem nests_ask (action : Action) {next : action.Answer → Except Error α}
    (hasks : ∀ held, nesting.Asks held action) (hafter : ∀ held, heldAfter held action = held) :
    Nests level (.mk (.ask action fun answer => .done (next answer))) := by
  rintro held - _ rfl
  refine ⟨hasks _, ?_⟩
  rintro answer _ rfl _ rfl
  exact hafter _

theorem nests_query (n : Node) : Nests level (query n) :=
  nests_ask (.query n) (fun _ => trivial) fun _ => rfl

theorem nests_fetch (n : Node) : Nests level (fetch n) :=
  nests_ask (.fetch n) (fun _ => trivial) fun _ => rfl

theorem nests_save (n : Node) (blob : ByteArray) : Nests level (save n blob) :=
  nests_ask (.save n blob) (fun _ => trivial) fun _ => rfl

theorem nests_note (r : Record) : Nests level (note r) :=
  nests_ask (.note r) (fun _ => trivial) fun _ => rfl

/-- A lock is taken on top of locks that lie above it, and what it guards takes locks below it. -/
theorem Nests.withLock {n : Node} {body : Build α} (hle : level ≤ n.level)
    (h : Nests (n.level + 1) body) : Nests level (withLock n body) := by
  rintro _ hheld held rfl
  refine ⟨fun m hm => Nat.lt_of_lt_of_le (hheld m hm) hle, ?_⟩
  rintro _ _ rfl
  have hbelow : ∀ m ∈ n :: held, m.level < n.level + 1 := by
    refine List.forall_mem_cons.2 ⟨Nat.lt_succ_self _, fun m hm => ?_⟩
    have := hheld m hm
    omega
  apply Routine.Keeps.bind (h (n :: held) hbelow)
  rintro r _ rfl _ rfl
  refine ⟨⟨held, rfl⟩, ?_⟩
  rintro _ _ rfl _ rfl
  show (n :: held).erase n = held
  rw [List.erase_cons_head]

theorem nests_mapM {ι : Type} {f : ι → Build α} (h : ∀ i, Nests level (f i)) (items : List ι) :
    Nests level (items.mapM f) := by
  induction items with
  | nil => exact nests_done _
  | cons i items ih =>
    rw [List.mapM_cons]
    exact (h i).bind fun _ => ih.bind fun _ => nests_done _

theorem nests_foldlM {ι : Type} {f : α → ι → Build α} (h : ∀ a i, Nests level (f a i))
    (items : List ι) (a : α) : Nests level (items.foldlM f a) := by
  induction items generalizing a with
  | nil => exact nests_done _
  | cons i items ih =>
    rw [List.foldlM_cons]
    exact (h a i).bind fun a' => ih a'

/-! ## Requests -/

variable (s : Schedule)

theorem nests_buildDeepest (n : Node) : Nests level (buildDeepest s n) := by
  refine (nests_query n).bind fun found => ?_
  cases found with
  | false => exact (nests_note _).bind fun _ => nests_done _
  | true =>
    have hleaves : Nests level (scanLeaves n (s.subtreeLevels - 1)) :=
      nests_foldlM (fun _ _ => (nests_query _).bind fun _ => nests_done _) _ _
    exact hleaves.bind fun _ => (nests_done _).bind fun _ => (nests_done _).bind fun _ =>
      nests_done _

/-- Going down a rank leads to rank roots further down. -/
theorem nests_descend {resolve : Node → Build Subtree}
    (hresolve : ∀ n, Nests n.level (resolve n)) (levels : Nat) (n : Node) :
    Nests (n.level + 1) (descend resolve levels n) := by
  induction levels generalizing n with
  | zero => exact nests_done _
  | succ levels ih =>
    refine (nests_query n).bind fun found => ?_
    cases found with
    | false => exact (nests_note _).bind fun _ => nests_done _
    | true =>
      have hlast (q : UInt64) : Nests (n.level + 1) (do
          check (← resolve (n.child q)).summary) :=
        (hresolve (n.child q)).bind fun _ => nests_done _
      have hinside (q : UInt64) : Nests (n.level + 1) (descend resolve levels (n.child q)) :=
        (ih (n.child q)).mono (Nat.le_succ _)
      by_cases h0 : levels = 0
      · simp only [if_pos h0, if_true]
        exact (nests_mapM hlast _).bind fun _ => (nests_done _).bind fun _ => nests_done _
      · simp only [if_neg h0, if_true]
        exact (nests_mapM hinside _).bind fun _ => nests_done _

theorem nests_buildAndSave {build : Node → Build Subtree} {n : Node} (h : Nests level (build n)) :
    Nests level (buildAndSave build n) :=
  h.bind fun _ => (nests_save n _).bind fun _ => (nests_note _).bind fun _ => nests_done _

theorem nests_fetchDecoded (n : Node) : Nests level (fetchDecoded s n) := by
  unfold fetchDecoded
  split
  · exact nests_done _
  refine (nests_fetch n).bind fun found => ?_
  cases found with
  | none => exact nests_done _
  | some bytes =>
    cases hdecode : Subtree.decode bytes s.subtreeLevels with
    | ok subtree =>
      simp only [hdecode]
      exact nests_done _
    | error cause =>
      simp only [hdecode]
      exact (nests_note _).bind fun _ => nests_done _

theorem nests_resolve {build : Node → Build Subtree} {n : Node}
    (h : Nests (n.level + 1) (build n)) : Nests n.level (resolve s build n) := by
  refine Nests.withLock (Nat.le_refl _) ((nests_fetchDecoded s n).bind fun found => ?_)
  cases found with
  | some subtree => exact nests_done _
  | none => exact (nests_buildAndSave h).bind fun _ => nests_done _

/-- What is locked while a rank is built lies below its root. -/
theorem nests_buildRank (ranks : Nat) (n : Node) :
    Nests (n.level + 1) (buildRank s ranks n) := by
  induction ranks generalizing n with
  | zero => exact nests_buildDeepest s n
  | succ ranks ih => exact nests_descend (fun n => nests_resolve s (ih n)) _ n

/-- **Requests nest their locks.** -/
theorem nests_get (t : Tile) : Nests t.level (get s t) := by
  rcases get_cases s t with ⟨-, e, hget⟩ | ⟨hroot, hin⟩
  · rw [hget]
    exact nests_done _
  rw [get_eq_withLock hroot hin]
  have hfetch : Nests (t.level + 1) (fetchBytes s t.node) := by
    unfold fetchBytes
    split
    · exact nests_done _
    · exact nests_fetch _
  refine Nests.withLock (Nat.le_refl _) (hfetch.bind fun found => ?_)
  cases found with
  | some bytes => exact (nests_note _).bind fun _ => nests_done _
  | none => exact (nests_buildAndSave (nests_buildRank s _ t.node)).bind fun _ => nests_done _

end ImplicitTiling.Store
