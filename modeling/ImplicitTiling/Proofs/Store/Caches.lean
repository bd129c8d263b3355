import ImplicitTiling.Store.MemoryCache
import Mathlib.Logic.Function.Basic

/-!
# Caches that may forget

The store counts on little: what it reads under a rank root is what was last put there, but a cache
may drop blobs as it likes, and so the memory cache does (`MemoryCache.keeps`). Without a capacity
it drops none (`MemoryCache.lossless`).
-/

namespace ImplicitTiling

/-- The blobs of a cache, by rank root. -/
abbrev Blobs : Type :=
  Node → Option ByteArray

namespace Blobs

/-- What is left when some blobs are dropped. -/
def Forgets (before after : Blobs) : Prop :=
  ∀ n, after n = before n ∨ after n = none

theorem Forgets.refl (blobs : Blobs) : Forgets blobs blobs :=
  fun _ => .inl rfl

theorem Forgets.update {before after : Blobs} (h : Forgets before after) (n : Node)
    (blob : ByteArray) :
    Forgets (Function.update before n (some blob)) (Function.update after n (some blob)) := by
  intro n'
  by_cases hn : n' = n
  · subst hn
    rw [Function.update_self, Function.update_self]
    exact .inl rfl
  · rw [Function.update_of_ne hn, Function.update_of_ne hn]
    exact h n'

theorem forgets_erase (blobs : Blobs) (n : Node) : Forgets blobs (Function.update blobs n none) := by
  intro n'
  rw [Function.update_apply]
  split
  · exact .inr rfl
  · exact .inl rfl

/-- Every blob is as its rank root wants it. -/
def All (blobs : Blobs) (good : Node → ByteArray → Prop) : Prop :=
  ∀ n blob, blobs n = some blob → good n blob

variable {good : Node → ByteArray → Prop}

theorem all_of_empty {blobs : Blobs} (h : ∀ n, blobs n = none) : blobs.All good := by
  intro n blob hblob
  rw [h n] at hblob
  cases hblob

theorem Forgets.all {before after : Blobs} (h : Forgets before after) (hgood : before.All good) :
    after.All good := by
  intro n blob hblob
  rcases h n with hn | hn
  · exact hgood n blob (hn.symm.trans hblob)
  · rw [hn] at hblob
    cases hblob

theorem All.update {blobs : Blobs} (hgood : blobs.All good) {n : Node} {blob : ByteArray}
    (h : good n blob) : Blobs.All (Function.update blobs n (some blob)) good := by
  intro n' blob' hblob'
  by_cases hn : n' = n
  · subst hn
    rw [Function.update_self] at hblob'
    cases hblob'
    exact h
  · rw [Function.update_of_ne hn] at hblob'
    exact hgood n' blob' hblob'

end Blobs

/-- A cache whose state holds the blobs `blobs`. Neither reading nor writing fails. What is read is
what is held; both may drop blobs, and writing changes nothing else but the blob written. -/
structure BlobCache.Keeps {σ : Type} (cache : BlobCache (StateM σ)) (blobs : σ → Blobs) : Prop where
  get_eq : ∀ c n, ((cache.get n).run c).1 = .ok (blobs c n)
  get_forgets : ∀ c n, Blobs.Forgets (blobs c) (blobs ((cache.get n).run c).2)
  put_eq : ∀ c n blob, ((cache.put n blob).run c).1 = .ok ()
  put_forgets : ∀ c n blob, Blobs.Forgets (Function.update (blobs c) n (some blob))
    (blobs ((cache.put n blob).run c).2)

/-- The cache that drops nothing. -/
def Blobs.cache : BlobCache (StateM Blobs) where
  get n := fun blobs => (.ok (blobs n), blobs)
  put n blob := fun blobs => (.ok (), Function.update blobs n (some blob))

theorem Blobs.keeps : Blobs.cache.Keeps fun blobs => blobs where
  get_eq _ _ := rfl
  get_forgets _ _ := .refl _
  put_eq _ _ _ := rfl
  put_forgets _ _ _ := .refl _

/-- A cache that drops nothing as long as it is in one of the states `ample`, and stays in them. -/
structure BlobCache.Lossless {σ : Type} (cache : BlobCache (StateM σ)) (blobs : σ → Blobs)
    (ample : σ → Prop) : Prop extends cache.Keeps blobs where
  ample_get : ∀ c n, ample c → ample ((cache.get n).run c).2
  blobs_get : ∀ c n, ample c → blobs ((cache.get n).run c).2 = blobs c
  ample_put : ∀ c n blob, ample c → ample ((cache.put n blob).run c).2
  blobs_put : ∀ c n blob, ample c →
    blobs ((cache.put n blob).run c).2 = Function.update (blobs c) n (some blob)

theorem Blobs.lossless : Blobs.cache.Lossless (fun blobs => blobs) fun _ => True where
  toKeeps := Blobs.keeps
  ample_get _ _ _ := trivial
  blobs_get _ _ _ := rfl
  ample_put _ _ _ _ := trivial
  blobs_put _ _ _ _ := rfl

namespace MemoryCache

/-- The blobs that the cache holds. -/
def held (c : MemoryCache) : Blobs :=
  fun n => c.blobs[n]?

theorem held_empty (capacity : Option Nat) (n : Node) : (empty capacity).held n = none :=
  Std.HashMap.getElem?_empty

theorem held_get (c : MemoryCache) (n : Node) :
    (c.get n).1 = c.held n ∧ (c.get n).2.held = c.held := by
  unfold get held
  cases c.blobs[n]? with
  | none => exact ⟨rfl, rfl⟩
  | some blob => exact ⟨rfl, rfl⟩

theorem held_erase (c : MemoryCache) (n : Node) :
    (c.erase n).held = Function.update c.held n none := by
  funext n'
  show (c.blobs.erase n)[n']? = _
  rw [Std.HashMap.getElem?_erase, Function.update_apply]
  by_cases h : n' = n
  · subst h
    rw [if_pos rfl, if_pos (beq_self_eq_true _)]
  · rw [if_neg h, if_neg fun heq => h (eq_of_beq heq).symm]
    rfl

theorem held_evict (c : MemoryCache) : Blobs.Forgets c.held c.evict.held := by
  unfold evict
  cases c.usage[0]? with
  | none => exact .refl _
  | some oldest =>
    show Blobs.Forgets c.held (c.erase oldest).held
    rw [held_erase]
    exact Blobs.forgets_erase c.held oldest

theorem held_insert (c : MemoryCache) (n : Node) (blob : ByteArray) (usage : Array Node) :
    ({ c with blobs := c.blobs.insert n blob, usage } : MemoryCache).held =
      Function.update c.held n (some blob) := by
  funext n'
  show (c.blobs.insert n blob)[n']? = _
  rw [Std.HashMap.getElem?_insert, Function.update_apply]
  by_cases h : n' = n
  · subst h
    rw [if_pos rfl, if_pos (beq_self_eq_true _)]
  · rw [if_neg h, if_neg fun heq => h (eq_of_beq heq).symm]
    rfl

theorem held_put (c : MemoryCache) (n : Node) (blob : ByteArray) :
    Blobs.Forgets (Function.update c.held n (some blob)) (c.put n blob).held := by
  unfold put
  split
  · rw [held_insert]
    exact .refl _
  · dsimp only
    rw [held_insert]
    split
    · exact c.held_evict.update n blob
    · exact .refl _

theorem isAtCapacity_of_unbounded {c : MemoryCache} (hc : c.capacity = none) :
    c.isAtCapacity = false := by
  unfold isAtCapacity
  rw [hc]

/-- Without a capacity nothing is dropped. -/
theorem held_put_of_unbounded {c : MemoryCache} (hc : c.capacity = none) (n : Node)
    (blob : ByteArray) : (c.put n blob).held = Function.update c.held n (some blob) := by
  unfold put
  split
  · rw [held_insert]
  · dsimp only
    rw [held_insert, isAtCapacity_of_unbounded hc, if_neg Bool.false_ne_true]

theorem capacity_get (c : MemoryCache) (n : Node) : (c.get n).2.capacity = c.capacity := by
  unfold get
  cases c.blobs[n]? <;> rfl

theorem capacity_put_of_unbounded {c : MemoryCache} (hc : c.capacity = none) (n : Node)
    (blob : ByteArray) : (c.put n blob).capacity = none := by
  unfold put
  split
  · exact hc
  · rw [isAtCapacity_of_unbounded hc]
    exact hc

/-- **The memory cache only forgets.** -/
theorem keeps : cache.Keeps held where
  get_eq c n := congrArg Except.ok (c.held_get n).1
  get_forgets c n := by
    show Blobs.Forgets c.held (c.get n).2.held
    rw [(c.held_get n).2]
    exact .refl _
  put_eq _ _ _ := rfl
  put_forgets c n blob := c.held_put n blob

/-- The memory cache without a capacity drops nothing. -/
theorem lossless : cache.Lossless held fun c => c.capacity = none where
  toKeeps := keeps
  ample_get c n hc := (c.capacity_get n).trans hc
  blobs_get c n _ := (c.held_get n).2
  ample_put _ n blob hc := capacity_put_of_unbounded hc n blob
  blobs_put _ n blob hc := held_put_of_unbounded hc n blob

end MemoryCache

end ImplicitTiling
