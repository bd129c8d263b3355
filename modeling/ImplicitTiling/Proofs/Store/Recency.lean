import ImplicitTiling.Proofs.Store.Caches
import Mathlib.Data.List.Nodup

/-!
# The memory cache as a list in order of use

`Recency` is a cache that consists of one list of rank roots with their bytes, the one used least
recently first. The memory cache keeps the bytes and the order apart. Step by step the two mirror
each other (`Mirrors.step`), so they give the same answers to any requests, and the order of the
memory cache never holds anything but the rank roots of its blobs, each once (`serve_eq_recency`).
-/

namespace ImplicitTiling

/-! ## Requests -/

/-- A request to a cache in memory. -/
inductive CacheRequest where
  | put (n : Node) (blob : ByteArray)
  | get (n : Node)
  | remove (n : Node)
  | contains (n : Node)
  | size
  | keys

/-- What a request is answered with. -/
inductive CacheAnswer where
  | done
  | bytes (found : Option ByteArray)
  | holds (yes : Bool)
  | count (size : Nat)
  | roots (keys : List Node)
  deriving DecidableEq

/-- The same answer. Rank roots are listed in no particular order. -/
def CacheAnswer.Same : CacheAnswer → CacheAnswer → Prop
  | roots keys, roots keys' => keys.Perm keys'
  | answer, answer' => answer = answer'

/-- The answers to requests one after the other, and the state that they leave. -/
def serve {σ : Type} (answer : σ → CacheRequest → CacheAnswer × σ) :
    σ → List CacheRequest → List CacheAnswer × σ
  | state, [] => ([], state)
  | state, request :: requests =>
    let (first, state) := answer state request
    let (rest, state) := serve answer state requests
    (first :: rest, state)

def MemoryCache.answer (c : MemoryCache) : CacheRequest → CacheAnswer × MemoryCache
  | .put n blob => (.done, c.put n blob)
  | .get n =>
    let (found, c) := c.get n
    (.bytes found, c)
  | .remove n =>
    let (found, c) := c.remove n
    (.bytes found, c)
  | .contains n => (.holds (c.contains n), c)
  | .size => (.count c.size, c)
  | .keys => (.roots c.keys, c)

/-! ## The list in order of use -/

/-- Rank roots with their bytes, those used least recently first. -/
structure Recency where
  /-- The most blobs that are held; `none` holds all. -/
  capacity : Option Nat
  blobs : List (Node × ByteArray)

namespace Recency

def empty (capacity : Option Nat) : Recency where
  capacity := capacity.map (max 1)
  blobs := []

def roots (r : Recency) : List Node :=
  r.blobs.map Prod.fst

/-- The list without a rank root, the others in their order. -/
def without (r : Recency) (n : Node) : List (Node × ByteArray) :=
  r.blobs.filter fun p => p.1 != n

/-- Whether no further blob may be held. -/
def isAtCapacity (r : Recency) : Bool :=
  match r.capacity with
  | some most => most ≤ r.blobs.length
  | none => false

/-- The bytes of a rank root, which moves to the end. -/
def get (r : Recency) (n : Node) : Option ByteArray × Recency :=
  match r.blobs.lookup n with
  | some blob => (some blob, { r with blobs := r.without n ++ [(n, blob)] })
  | none => (none, r)

/-- Puts bytes at the end, in place of those of the rank root. A new rank root first takes the place
of the first one if the list is at its capacity. -/
def put (r : Recency) (n : Node) (blob : ByteArray) : Recency :=
  if n ∈ r.roots then { r with blobs := r.without n ++ [(n, blob)] }
  else if r.isAtCapacity then { r with blobs := r.blobs.tail ++ [(n, blob)] }
  else { r with blobs := r.blobs ++ [(n, blob)] }

def remove (r : Recency) (n : Node) : Option ByteArray × Recency :=
  (r.blobs.lookup n, { r with blobs := r.without n })

def answer (r : Recency) : CacheRequest → CacheAnswer × Recency
  | .put n blob => (.done, r.put n blob)
  | .get n =>
    let (found, r) := r.get n
    (.bytes found, r)
  | .remove n =>
    let (found, r) := r.remove n
    (.bytes found, r)
  | .contains n => (.holds (n ∈ r.roots), r)
  | .size => (.count r.blobs.length, r)
  | .keys => (.roots r.roots, r)

variable {r : Recency}

theorem lookup_eq_none_iff {n : Node} : r.blobs.lookup n = none ↔ n ∉ r.roots := by
  rw [List.lookup_eq_none_iff, roots, List.mem_map]
  constructor
  · rintro h ⟨p, hp, rfl⟩
    exact absurd (h p hp) (by simp)
  · intro h p hp
    rw [bne_iff_ne]
    rintro rfl
    exact h ⟨p, hp, rfl⟩

theorem mem_roots_of_lookup {n : Node} {blob : ByteArray} (h : r.blobs.lookup n = some blob) :
    n ∈ r.roots := by
  by_contra hn
  rw [lookup_eq_none_iff.2 hn] at h
  cases h

theorem lookup_without (r : Recency) (n n' : Node) :
    (r.without n).lookup n' = if n' = n then none else r.blobs.lookup n' := by
  unfold without
  induction r.blobs with
  | nil => simp
  | cons p blobs ih =>
    obtain ⟨k, blob⟩ := p
    grind

theorem map_without (hr : r.roots.Nodup) (n : Node) :
    (r.without n).map Prod.fst = r.roots.erase n := by
  rw [hr.erase_eq_filter, roots, without, List.filter_map]
  rfl

/-- The first rank root is the one that an eviction drops. -/
theorem without_head {n : Node} {blob : ByteArray} {rest : List (Node × ByteArray)}
    (hr : r.roots.Nodup) (h : r.blobs = (n, blob) :: rest) : r.without n = rest := by
  rw [roots, h, List.map_cons, List.nodup_cons] at hr
  rw [without, h, List.filter_cons_of_neg (by simp), List.filter_eq_self]
  rintro ⟨k, blob'⟩ hp
  rw [bne_iff_ne]
  rintro rfl
  exact hr.1 (List.mem_map.2 ⟨_, hp, rfl⟩)

/-- The list is no longer than its capacity. -/
structure Fits (r : Recency) (most : Nat) : Prop where
  capacity_eq : r.capacity = some most
  pos : 0 < most
  length_le : r.blobs.length ≤ most

variable {most : Nat}

theorem fits_empty (most : Nat) : (empty (some most)).Fits (max 1 most) where
  capacity_eq := rfl
  pos := Nat.le_max_left 1 most
  length_le := Nat.zero_le _

theorem length_without_lt {n : Node} (hn : n ∈ r.roots) :
    (r.without n).length < r.blobs.length := by
  obtain ⟨p, hp, rfl⟩ := List.mem_map.1 hn
  exact List.length_filter_lt_length_iff_exists.2 ⟨p, hp, by simp⟩

/-- Bytes that move to the end take no further place. -/
theorem Fits.renew (h : r.Fits most) {n : Node} (hn : n ∈ r.roots) (blob : ByteArray) :
    Fits { r with blobs := r.without n ++ [(n, blob)] } most where
  capacity_eq := h.capacity_eq
  pos := h.pos
  length_le := by
    rw [List.length_append, List.length_singleton]
    exact Nat.le_trans (length_without_lt hn) h.length_le

theorem isAtCapacity_iff (h : r.capacity = some most) :
    r.isAtCapacity = true ↔ most ≤ r.blobs.length := by
  rw [isAtCapacity, h, decide_eq_true_eq]

/-- A new rank root takes the place of the first one if the list is full. -/
theorem Fits.put (h : r.Fits most) (n : Node) (blob : ByteArray) : (r.put n blob).Fits most := by
  have hpos := h.pos
  have hle := h.length_le
  unfold Recency.put
  by_cases hn : n ∈ r.roots
  · rw [if_pos hn]
    exact h.renew hn blob
  · rw [if_neg hn]
    by_cases hfull : r.isAtCapacity = true
    · rw [if_pos hfull]
      refine ⟨h.capacity_eq, hpos, ?_⟩
      rw [List.length_append, List.length_tail, List.length_singleton]
      omega
    · rw [if_neg hfull]
      rw [isAtCapacity_iff h.capacity_eq] at hfull
      refine ⟨h.capacity_eq, hpos, ?_⟩
      rw [List.length_append, List.length_singleton]
      omega

theorem Fits.get (h : r.Fits most) (n : Node) : (r.get n).2.Fits most := by
  unfold Recency.get
  cases hfound : r.blobs.lookup n with
  | none => exact h
  | some blob => exact h.renew (mem_roots_of_lookup hfound) blob

theorem Fits.step (h : r.Fits most) (request : CacheRequest) :
    (r.answer request).2.Fits most := by
  cases request with
  | put n blob => exact h.put n blob
  | get n => exact h.get n
  | remove n => exact ⟨h.capacity_eq, h.pos, Nat.le_trans (List.length_filter_le _ _) h.length_le⟩
  | contains n => exact h
  | size => exact h
  | keys => exact h

theorem Fits.run (h : r.Fits most) (requests : List CacheRequest) :
    (serve answer r requests).2.Fits most := by
  induction requests generalizing r with
  | nil => exact h
  | cons request requests ih => exact ih (h.step request)

end Recency

namespace MemoryCache

/-- The bytes and the order of use of the cache are those of the list. -/
structure Mirrors (c : MemoryCache) (r : Recency) : Prop where
  capacity_eq : c.capacity = r.capacity
  usage_eq : c.usage.toList = r.roots
  nodup : r.roots.Nodup
  held_eq : ∀ n, c.held n = r.blobs.lookup n

variable {c : MemoryCache} {r : Recency}

theorem mirrors_empty (capacity : Option Nat) :
    (empty capacity).Mirrors (Recency.empty capacity) where
  capacity_eq := rfl
  usage_eq := rfl
  nodup := List.nodup_nil
  held_eq n := held_empty capacity n

namespace Mirrors

theorem contains_eq (h : c.Mirrors r) (n : Node) : c.contains n = decide (n ∈ r.roots) := by
  rw [MemoryCache.contains, Std.HashMap.contains_eq_isSome_getElem?]
  show (c.held n).isSome = _
  rw [h.held_eq]
  cases hfound : r.blobs.lookup n with
  | none => exact (decide_eq_false (Recency.lookup_eq_none_iff.1 hfound)).symm
  | some blob => exact (decide_eq_true (Recency.mem_roots_of_lookup hfound)).symm

theorem keys_perm (h : c.Mirrors r) : c.keys.Perm r.roots := by
  refine (List.perm_ext_iff_of_nodup Std.HashMap.nodup_keys h.nodup).2 ?_
  intro n
  rw [Std.HashMap.mem_keys, ← Std.HashMap.contains_iff_mem]
  show c.contains n = true ↔ _
  rw [h.contains_eq, decide_eq_true_eq]

theorem size_eq (h : c.Mirrors r) : c.size = r.blobs.length := by
  have hlength : c.blobs.keys.length = r.roots.length := h.keys_perm.length_eq
  rw [MemoryCache.size, ← Std.HashMap.length_keys, hlength, Recency.roots, List.length_map]

theorem isAtCapacity_eq (h : c.Mirrors r) : c.isAtCapacity = r.isAtCapacity := by
  unfold isAtCapacity Recency.isAtCapacity
  rw [h.capacity_eq]
  cases r.capacity with
  | none => rfl
  | some most => exact congrArg (fun size => decide (most ≤ size)) h.size_eq

/-! ## Single changes -/

theorem erase (h : c.Mirrors r) (n : Node) :
    (c.erase n).Mirrors { r with blobs := r.without n } where
  capacity_eq := h.capacity_eq
  usage_eq := by
    show (c.usage.erase n).toList = (r.without n).map Prod.fst
    rw [Recency.map_without h.nodup, ← h.usage_eq]
    obtain ⟨usage⟩ := c.usage
    rw [List.erase_toArray]
  nodup := by
    show ((r.without n).map Prod.fst).Nodup
    rw [Recency.map_without h.nodup]
    exact h.nodup.erase n
  held_eq n' := by
    rw [held_erase, Recency.lookup_without, Function.update_apply, h.held_eq]

/-- Bytes that come to a rank root that has none, as the ones used last. -/
theorem push (h : c.Mirrors r) {n : Node} (hn : n ∉ r.roots) {blob : ByteArray}
    {blobs : Std.HashMap Node ByteArray}
    (hblobs : held { c with blobs } = Function.update c.held n (some blob)) :
    ({ c with blobs, usage := c.usage.push n } : MemoryCache).Mirrors
      { r with blobs := r.blobs ++ [(n, blob)] } where
  capacity_eq := h.capacity_eq
  usage_eq := by
    show (c.usage.push n).toList = (r.blobs ++ [(n, blob)]).map Prod.fst
    rw [Array.toList_push, h.usage_eq, List.map_append]
    rfl
  nodup := by
    show ((r.blobs ++ [(n, blob)]).map Prod.fst).Nodup
    rw [List.map_append, List.nodup_append]
    refine ⟨h.nodup, List.nodup_singleton n, ?_⟩
    intro n' hn' last hlast heq
    obtain rfl := List.mem_singleton.1 hlast
    exact hn (heq ▸ hn')
  held_eq n' := by
    show held { c with blobs } n' = (r.blobs ++ [(n, blob)]).lookup n'
    rw [hblobs, List.lookup_append, List.lookup_cons, List.lookup_nil]
    by_cases hn' : n' = n
    · subst hn'
      rw [Function.update_self, Recency.lookup_eq_none_iff.2 hn, beq_self_eq_true]
      rfl
    · rw [Function.update_of_ne hn', h.held_eq, beq_eq_false_iff_ne.2 hn', Option.or_none]

/-- Bytes of a rank root that has some, which becomes the one used last. -/
theorem renew (h : c.Mirrors r) (n : Node) {blob : ByteArray} {blobs : Std.HashMap Node ByteArray}
    (hblobs : held { c with blobs } = Function.update c.held n (some blob)) :
    ({ c with blobs, usage := (c.usage.erase n).push n } : MemoryCache).Mirrors
      { r with blobs := r.without n ++ [(n, blob)] } := by
  have hn : n ∉ (r.without n).map Prod.fst := by
    rw [Recency.map_without h.nodup, h.nodup.mem_erase_iff]
    exact fun hmem => hmem.1 rfl
  refine (h.erase n).push hn ?_
  rw [held_erase, Function.update_idem]
  exact hblobs

/-- An eviction drops the first rank root. -/
theorem evict (h : c.Mirrors r) : c.evict.Mirrors { r with blobs := r.blobs.tail } := by
  have husage := h.usage_eq
  unfold MemoryCache.evict
  rw [← Array.getElem?_toList, husage, Recency.roots]
  cases hblobs : r.blobs with
  | nil =>
    obtain ⟨capacity, blobs⟩ := r
    cases hblobs
    exact h
  | cons p rest =>
    have hdrop := h.erase p.1
    rwa [Recency.without_head h.nodup hblobs] at hdrop

/-! ## Requests one after the other -/

theorem put (h : c.Mirrors r) (n : Node) (blob : ByteArray) :
    (c.put n blob).Mirrors (r.put n blob) := by
  unfold MemoryCache.put Recency.put
  rw [h.contains_eq, h.isAtCapacity_eq]
  by_cases hn : n ∈ r.roots
  · rw [if_pos (decide_eq_true hn), if_pos hn]
    exact h.renew n (c.held_insert n blob c.usage)
  · rw [if_neg (by simpa using hn), if_neg hn]
    -- What is new stays so when the first rank root goes.
    cases r.isAtCapacity with
    | false => exact h.push hn (c.held_insert n blob c.usage)
    | true =>
      have htail : n ∉ r.blobs.tail.map Prod.fst := by
        rw [List.map_tail]
        exact fun hmem => hn (List.mem_of_mem_tail hmem)
      exact h.evict.push htail (c.evict.held_insert n blob c.evict.usage)

theorem get (h : c.Mirrors r) (n : Node) :
    (c.get n).1 = (r.get n).1 ∧ (c.get n).2.Mirrors (r.get n).2 := by
  have hheld := h.held_eq n
  unfold held at hheld
  unfold MemoryCache.get Recency.get
  cases hfound : r.blobs.lookup n with
  | none =>
    rw [hheld, hfound]
    exact ⟨rfl, h⟩
  | some blob =>
    -- The bytes stay; only their place in the order changes.
    have hsame : Function.update c.held n (some blob) = c.held := by
      rw [← hfound, ← h.held_eq, Function.update_eq_self]
    rw [hheld, hfound]
    exact ⟨rfl, h.renew n hsame.symm⟩

theorem remove (h : c.Mirrors r) (n : Node) :
    (c.remove n).1 = (r.remove n).1 ∧ (c.remove n).2.Mirrors (r.remove n).2 :=
  ⟨h.held_eq n, h.erase n⟩

/-- **One request** is answered alike and leaves states that mirror each other. -/
theorem step (h : c.Mirrors r) (request : CacheRequest) :
    (c.answer request).1.Same (r.answer request).1 ∧
      (c.answer request).2.Mirrors (r.answer request).2 := by
  cases request with
  | put n blob => exact ⟨rfl, h.put n blob⟩
  | get n => exact ⟨congrArg CacheAnswer.bytes (h.get n).1, (h.get n).2⟩
  | remove n => exact ⟨congrArg CacheAnswer.bytes (h.remove n).1, (h.remove n).2⟩
  | contains n => exact ⟨congrArg CacheAnswer.holds (h.contains_eq n), h⟩
  | size => exact ⟨congrArg CacheAnswer.count h.size_eq, h⟩
  | keys => exact ⟨h.keys_perm, h⟩

theorem run (h : c.Mirrors r) (requests : List CacheRequest) :
    List.Forall₂ CacheAnswer.Same (serve MemoryCache.answer c requests).1
        (serve Recency.answer r requests).1 ∧
      (serve MemoryCache.answer c requests).2.Mirrors (serve Recency.answer r requests).2 := by
  induction requests generalizing c r with
  | nil => exact ⟨.nil, h⟩
  | cons request requests ih =>
    obtain ⟨hsame, hnext⟩ := h.step request
    obtain ⟨hrest, hlast⟩ := ih hnext
    exact ⟨.cons hsame hrest, hlast⟩

end Mirrors

end MemoryCache

/-- The memory cache answers any requests as the list in order of use does, whatever its capacity.
At every time its order of use is that of the list: it holds the rank root of every blob once and no
other. There are never more blobs than the capacity, where zero counts as one. -/
theorem serve_eq_recency (capacity : Option Nat) (requests : List CacheRequest) :
    let cached := serve MemoryCache.answer (MemoryCache.empty capacity) requests
    let listed := serve Recency.answer (Recency.empty capacity) requests
    List.Forall₂ CacheAnswer.Same cached.1 listed.1 ∧
      cached.2.usage.toList = listed.2.roots ∧
      (∀ n, cached.2.usage.toList.count n = if cached.2.contains n then 1 else 0) ∧
      ∀ most, capacity = some most → cached.2.size ≤ max 1 most := by
  intro cached listed
  obtain ⟨hsame, hmirrors⟩ := (MemoryCache.mirrors_empty capacity).run requests
  refine ⟨hsame, hmirrors.usage_eq, ?_, ?_⟩
  · intro n
    rw [hmirrors.usage_eq, hmirrors.contains_eq, hmirrors.nodup.count]
    simp only [decide_eq_true_eq]
  · rintro most rfl
    rw [hmirrors.size_eq]
    exact ((Recency.fits_empty most).run requests).length_le

/-- Two places for three rank roots: reading and writing again save the first one from the eviction,
and a blob written in place of another drops none. -/
theorem serve_eq_recency_three_roots :
    let first := Node.mk 0 0
    let second := Node.mk 4 0
    let third := Node.mk 4 7
    let cached := serve MemoryCache.answer (MemoryCache.empty (some 2))
      [.put first ⟨#[1]⟩, .put second ⟨#[2]⟩, .get first, .put third ⟨#[3]⟩, .contains second,
        .put first ⟨#[4]⟩, .size, .remove third, .get first, .keys]
    List.Forall₂ CacheAnswer.Same cached.1
        [.done, .done, .bytes (some ⟨#[1]⟩), .done, .holds false, .done, .count 2,
          .bytes (some ⟨#[3]⟩), .bytes (some ⟨#[4]⟩), .roots [first]] ∧
      cached.2.size ≤ max 1 2 := by
  obtain ⟨hsame, -, -, hsize⟩ := serve_eq_recency (some 2)
    [.put ⟨0, 0⟩ ⟨#[1]⟩, .put ⟨4, 0⟩ ⟨#[2]⟩, .get ⟨0, 0⟩, .put ⟨4, 7⟩ ⟨#[3]⟩, .contains ⟨4, 0⟩,
      .put ⟨0, 0⟩ ⟨#[4]⟩, .size, .remove ⟨4, 7⟩, .get ⟨0, 0⟩, .keys]
  exact ⟨hsame, hsize 2 rfl⟩

end ImplicitTiling
