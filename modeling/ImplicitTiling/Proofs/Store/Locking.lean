import ImplicitTiling.Proofs.Store.Assembly
import ImplicitTiling.Proofs.Store.Caches
import ImplicitTiling.Proofs.Subtree.RoundTrip
import ImplicitTiling.Proofs.Subtree.Untrusted

/-!
# Building with locks held

Where many requests share a cache that drops nothing, nobody saves under a rank root without its
lock. So what a request finds there once it has the lock stays as it is, and it saves only where
nothing is cached yet. What it saves points only to what is cached already (`keeps_get_locking`),
whatever the oracle says.
-/

namespace ImplicitTiling

/-- Nothing is dropped or overwritten, and nothing is saved under the rank roots `own`. -/
structure Blobs.Grows (own : List Node) (before after : Blobs) : Prop where
  kept : ∀ n blob, before n = some blob → after n = some blob
  own_eq : ∀ n ∈ own, after n = before n

namespace Blobs.Grows

variable {own own' : List Node} {before after last : Blobs}

theorem refl (own : List Node) (blobs : Blobs) : Grows own blobs blobs :=
  ⟨fun _ _ h => h, fun _ _ => rfl⟩

theorem trans (h : Grows own before after) (h' : Grows own after last) : Grows own before last :=
  ⟨fun n blob hblob => h'.kept n blob (h.kept n blob hblob),
    fun n hn => (h'.own_eq n hn).trans (h.own_eq n hn)⟩

theorem subset (h : Grows own before after) (hsub : own' ⊆ own) : Grows own' before after :=
  ⟨h.kept, fun n hn => h.own_eq n (hsub hn)⟩

/-- Somebody else saves where nothing is cached. -/
theorem update {blobs : Blobs} {n : Node} (hn : n ∉ own) (hnone : blobs n = none)
    (blob : ByteArray) : Grows own blobs (Function.update blobs n (some blob)) where
  kept n' blob' h := by
    have hne : n' ≠ n := by
      rintro rfl
      exact absurd (hnone.symm.trans h) (by simp)
    rw [Function.update_of_ne hne]
    exact h
  own_eq n' hn' := by
    have hne : n' ≠ n := by
      rintro rfl
      exact hn hn'
    exact Function.update_of_ne hne _ _

end Blobs.Grows

namespace Store

/-- The cache holds, for the rank root of a level with a given Morton index, bytes that decode to
`sub`. -/
def Cached (s : Schedule) (blobs : Blobs) (level index : Nat) (sub : Subtree) : Prop :=
  ∃ blob, blobs (.ofNat level index) = some blob ∧
    Subtree.decode blob s.subtreeLevels = .ok sub

/-- The bytes decode, and every child subtree that they point to is cached and not empty. -/
structure IsLinked (s : Schedule) (blobs : Blobs) (n : Node) (blob : ByteArray) : Prop where
  isRankRoot : s.isRankRoot n.level = true
  index_lt : n.index.toNat < 4 ^ n.level
  decodes : ∃ sub, Subtree.decode blob s.subtreeLevels = .ok sub ∧
    ∀ c < 4 ^ s.subtreeLevels, (sub.children.row 0).get c = true → ∃ below,
      Cached s blobs (n.level + s.subtreeLevels) (4 ^ s.subtreeLevels * n.index.toNat + c) below ∧
        below.tiles.isAvailable = true

variable {s : Schedule}

theorem Cached.mono {blobs blobs' : Blobs} {level index : Nat} {sub : Subtree}
    (h : Cached s blobs level index sub)
    (hkept : ∀ n blob, blobs n = some blob → blobs' n = some blob) :
    Cached s blobs' level index sub := by
  obtain ⟨blob, hblob, hsub⟩ := h
  exact ⟨blob, hkept _ _ hblob, hsub⟩

theorem Cached.levels_eq {blobs : Blobs} {level index : Nat} {sub : Subtree} (hs : s.Valid)
    (h : Cached s blobs level index sub) : sub.levels = s.subtreeLevels := by
  obtain ⟨blob, -, hsub⟩ := h
  rcases Subtree.decode_format_or_ok blob hs.levels_pos hs.levels_le with ⟨cause, he⟩ | ⟨t, ht, hl⟩
  · rw [he] at hsub
    cases hsub
  · rw [ht] at hsub
    cases hsub
    exact hl

theorem IsLinked.mono {blobs blobs' : Blobs} {n : Node} {blob : ByteArray}
    (h : IsLinked s blobs n blob)
    (hkept : ∀ n blob, blobs n = some blob → blobs' n = some blob) : IsLinked s blobs' n blob := by
  obtain ⟨sub, hsub, hbelow⟩ := h.decodes
  refine ⟨h.isRankRoot, h.index_lt, sub, hsub, fun c hc hset => ?_⟩
  obtain ⟨below, hcached, havailable⟩ := hbelow c hc hset
  exact ⟨below, hcached.mono hkept, havailable⟩

/-- A coherent subtree over cached ranks gives linked bytes. -/
theorem CoherentRank.isLinked {blobs : Blobs} {level index : Nat} {t : Subtree} (hs : s.Valid)
    (hroot : s.isRankRoot level = true) (hi : index < 4 ^ level)
    (h : CoherentRank s (Cached s blobs) level index t) :
    Subtree.decode t.encode s.subtreeLevels = .ok t ∧
      IsLinked s blobs (.ofNat level index) t.encode := by
  have hle := hs.le_maxRankRoot hroot
  have hindex := Node.toNat_index_ofNat (hs.level_lt hroot).le hi
  have hdecode := Subtree.decode_of_encode (h.levels_eq (by omega)) hs.levels_pos hs.levels_le
  refine ⟨hdecode, hroot, hindex.symm ▸ hi, t, hdecode, fun c hc hset => ?_⟩
  rw [hindex]
  rcases Nat.eq_or_lt_of_le (show level ≤ s.maxRankRoot by omega) with heq | hlt
  · rw [(h.deepest heq).child c] at hset
    cases hset
  · exact (h.above hlt).child c hc hset

/-- What a request knows: the locks that it holds, the latest first, and the blobs of the cache. -/
structure Standing where
  held : List Node
  blobs : Blobs

/-- While a request waits, others save where nothing is cached and where it holds no lock. It takes
locks downwards, and saves linked bytes where nothing is cached and where it holds the lock. -/
def locking (s : Schedule) : Protocol Standing where
  Meanwhile k k' := k'.held = k.held ∧ Blobs.Grows k.held k.blobs k'.blobs
  refl k := ⟨rfl, .refl _ _⟩
  trans := by
    rintro k ⟨held', blobs'⟩ ⟨held'', blobs''⟩ ⟨rfl, h⟩ ⟨rfl, h'⟩
    exact ⟨rfl, h.trans h'⟩
  Asks
    | k, .save n blob => n ∈ k.held ∧ k.blobs n = none ∧ IsLinked s k.blobs n blob
    | k, .lock n => ∀ m ∈ k.held, m.level < n.level
    | _, _ => True
  Answers
    | k, .fetch n, found, k' => k' = k ∧ found = .ok (k.blobs n) ∧
      ∀ blob, k.blobs n = some blob → IsLinked s k.blobs n blob
    | k, .save n blob, _, k' => k' = ⟨k.held, Function.update k.blobs n (some blob)⟩
    | k, .lock n, _, k' => k' = ⟨n :: k.held, k.blobs⟩
    | k, .unlock n, _, k' => k' = ⟨k.held.erase n, k.blobs⟩
    | k, _, _, k' => k' = k

theorem locking_quiet (s : Schedule) : (locking s).Quiet where
  query k _ := ⟨trivial, by rintro _ _ ⟨rfl⟩; exact (locking s).refl k⟩
  note k _ := ⟨trivial, by rintro _ _ ⟨rfl⟩; exact (locking s).refl k⟩

/-- The request holds the lock of `n` on top of the locks that it held at `k`; since then it saved at
most under `n`. -/
def Under (n : Node) (k k' : Standing) : Prop :=
  k'.held = n :: k.held ∧ Blobs.Grows k.held k.blobs k'.blobs

theorem Under.later {n : Node} {k k' k'' : Standing} (h : Under n k k')
    (hk : (locking s).Meanwhile k' k'') : Under n k k'' := by
  obtain ⟨hheld, hgrows⟩ := h
  obtain ⟨hheld', hgrows'⟩ := hk
  rw [hheld] at hgrows'
  exact ⟨hheld'.trans hheld, hgrows.trans (hgrows'.subset (List.subset_cons_self _ _))⟩

/-- How a part of a routine ends that holds the lock of `n`; `post` speaks of its value. -/
def EndsUnder {α : Type} (n : Node) (k : Standing) (post : α → Blobs → Prop) (r : Except Error α)
    (k' : Standing) : Prop :=
  Under n k k' ∧ ∀ a, r = .ok a → post a k'.blobs

/-- What is said stays true as more is cached. -/
def Lasting {α : Type} (post : α → Blobs → Prop) : Prop :=
  ∀ ⦃a blobs blobs'⦄, post a blobs → (∀ n blob, blobs n = some blob → blobs' n = some blob) →
    post a blobs'

namespace EndsUnder

variable {α β : Type} {n : Node} {k k' k'' : Standing} {post : α → Blobs → Prop}

theorem error (h : Under n k k') (e : Error) : EndsUnder n k post (.error e) k' :=
  ⟨h, fun _ h => nomatch h⟩

theorem ok (h : Under n k k') {a : α} (ha : post a k'.blobs) : EndsUnder n k post (.ok a) k' :=
  ⟨h, by rintro _ ⟨rfl⟩; exact ha⟩

theorem later (hpost : Lasting post) {r : Except Error α} (h : EndsUnder n k post r k')
    (hk : (locking s).Meanwhile k' k'') : EndsUnder n k post r k'' :=
  ⟨h.1.later hk, fun a ha => hpost (h.2 a ha) hk.2.kept⟩

theorem map {post' : β → Blobs → Prop} {f : α → β} {r : Except Error α}
    (h : EndsUnder n k post r k') (hf : ∀ a, post a k'.blobs → post' (f a) k'.blobs) :
    EndsUnder n k post' (r.map f) k' := by
  cases r with
  | error e => exact .error h.1 e
  | ok a => exact .ok h.1 (hf a (h.2 a rfl))

end EndsUnder

section

open Build

variable {α : Type} {k : Standing} {level index : Nat}

/-- A part of a routine that holds a lock and gives it back. -/
theorem keeps_withLock_locking {n : Node} {body : Build α} (post : α → Blobs → Prop)
    (hpost : Lasting post) (hlevel : ∀ m ∈ k.held, m.level < n.level)
    (hbody : ∀ k', Under n k k' → body.run.Keeps (locking s) (EndsUnder n k post) k') :
    Keeps (locking s) (fun a k' => post a k'.blobs) (withLock n body) k := by
  refine Keeps.withLock (EndsUnder n k post) (fun h hk => h.later hpost hk) ?_ ?_
  · rintro k' ⟨hheld, hgrows⟩
    refine ⟨fun m hm => hlevel m (hheld ▸ hm), ?_⟩
    rintro _ rfl
    exact hbody _ ⟨congrArg (n :: ·) hheld, hgrows⟩
  · rintro r k' ⟨⟨hheld, hgrows⟩, hr⟩
    refine ⟨trivial, ?_⟩
    rintro _ rfl
    refine ⟨⟨?_, hgrows⟩, fun a ha k₃ hk₃ => hpost (hr a ha) hk₃.2.kept⟩
    show k'.held.erase n = k.held
    rw [hheld, List.erase_cons_head]

/-- With the lock of a rank root held, what is read there stays. -/
theorem keeps_fetch_locking {n : Node} (hn : n ∈ k.held) :
    Keeps (locking s)
      (fun found k' => k'.blobs n = found ∧ ∀ blob ∈ found, IsLinked s k'.blobs n blob)
      (fetch n) k := by
  refine Keeps.ask (.fetch n) (fun _ _ => trivial) ?_
  rintro k' _ _ hk ⟨rfl, rfl, hlinked⟩
  refine ⟨hk, ?_⟩
  rintro _ ⟨rfl⟩ k'' hk'
  refine ⟨hk'.2.own_eq n (hk.1.symm ▸ hn), fun blob hblob => ?_⟩
  exact (hlinked blob hblob).mono hk'.2.kept

theorem keeps_fetchDecoded_locking (hreload : s.reload = false)
    (hn : Node.ofNat level index ∈ k.held) :
    Keeps (locking s)
      (fun found k' => (found = none → k'.blobs (.ofNat level index) = none) ∧
        ∀ sub ∈ found, Cached s k'.blobs level index sub)
      (fetchDecoded s (.ofNat level index)) k := by
  unfold fetchDecoded
  simp only [hreload]
  refine (keeps_fetch_locking hn).bind fun found k' hk hfound => ?_
  have hn' : Node.ofNat level index ∈ k'.held := hk.1.symm ▸ hn
  cases found with
  | none =>
    refine .pure fun k'' hk' => ⟨fun _ => ?_, fun _ h => nomatch h⟩
    exact (hk'.2.own_eq _ hn').trans hfound.1
  | some blob =>
    obtain ⟨sub, hsub, -⟩ := (hfound.2 blob rfl).decodes
    simp only [hsub]
    refine .pure fun k'' hk' => ⟨(nomatch ·), fun sub' h => ?_⟩
    obtain rfl : sub = sub' := Option.some.inj h
    exact ⟨blob, hk'.2.kept _ _ hfound.1, hsub⟩

/-- With the lock of a rank root held, and nothing cached there, its rank is built and saved. -/
theorem keeps_buildAndSave_locking (hs : s.Valid) {build : Node → Build Subtree} {k₀ : Standing}
    (hroot : s.isRankRoot level = true) (hi : index < 4 ^ level)
    (hfresh : Node.ofNat level index ∉ k₀.held) (hunder : Under (.ofNat level index) k₀ k)
    (hnone : k.blobs (.ofNat level index) = none)
    (hbuild : Keeps (locking s) (fun t k' => CoherentRank s (Cached s k'.blobs) level index t)
      (build (.ofNat level index)) k) :
    (buildAndSave build (.ofNat level index)).run.Keeps (locking s)
      (EndsUnder (.ofNat level index) k₀ fun result blobs =>
        blobs (.ofNat level index) = some result.2 ∧
          Subtree.decode result.2 s.subtreeLevels = .ok result.1) k := by
  have hmem : Node.ofNat level index ∈ k.held := hunder.1.symm ▸ List.mem_cons_self
  refine Keeps.run_bind hbuild (fun e k' hk => .error (hunder.later hk) e) ?_
  intro t k' hk ht k'' hk'
  have hk'' := (locking s).trans hk hk'
  obtain ⟨hdecode, hlinked⟩ := ht.isLinked hs hroot hi
  have hnone' := (hk''.2.own_eq _ hmem).trans hnone
  refine ⟨⟨hk''.1.symm ▸ hmem, hnone', hlinked.mono hk'.2.kept⟩, ?_⟩
  rintro done _ rfl
  -- nobody counts on what is cached under this lock but who holds it, so saving there is allowed
  have hunder' := hunder.later hk''
  have hsaved : Under (.ofNat level index) k₀
      ⟨k''.held, Function.update k''.blobs (.ofNat level index) (some t.encode)⟩ :=
    ⟨hunder'.1, hunder'.2.trans (.update hfresh hnone' _)⟩
  have hblob : Function.update k''.blobs (.ofNat level index) (some t.encode)
      (.ofNat level index) = some t.encode := Function.update_self _ _ _
  cases done with
  | error e => exact fun k₁ hk₁ => .error (hsaved.later hk₁) e
  | ok _ =>
    refine Keeps.run_bind (keeps_note (locking_quiet s) _)
      (fun e k₁ hk₁ => .error (hsaved.later hk₁) e) fun _ k₁ hk₁ _ k₂ hk₂ => ?_
    have hk₂ := (locking s).trans hk₁ hk₂
    exact .ok (hsaved.later hk₂) ⟨hk₂.2.kept _ _ hblob, hdecode⟩

/-- What is known while a rank with its root at a level is built: no lock is held further down. -/
def HoldsDownTo (level : Nat) (k : Standing) : Prop :=
  ∀ m ∈ k.held, m.level ≤ level

theorem Under.holdsDownTo {upper : Nat} {k₀ : Standing} (h : Under (.ofNat level index) k₀ k)
    (hk₀ : HoldsDownTo upper k₀) (hupper : upper ≤ level) : HoldsDownTo level k := by
  intro m hm
  rw [h.1, List.mem_cons] at hm
  rcases hm with rfl | hm
  · exact Nat.le_refl level
  · exact Nat.le_trans (hk₀ m hm) hupper

theorem HoldsDownTo.not_mem {upper : Nat} (h : HoldsDownTo upper k) (hupper : upper < level) :
    Node.ofNat level index ∉ k.held :=
  fun hm => absurd (h _ hm) (Nat.not_le_of_lt hupper)

/-- Afterwards the rank root is cached, as it was found or as it was built. -/
theorem keeps_resolve_locking (hs : s.Valid) (hreload : s.reload = false) {upper : Nat}
    {build : Node → Build Subtree} (hupper : upper < level) (hroot : s.isRankRoot level = true)
    (hi : index < 4 ^ level)
    (hbuild : ∀ k, HoldsDownTo level k →
      Keeps (locking s) (fun t k' => CoherentRank s (Cached s k'.blobs) level index t)
        (build (.ofNat level index)) k)
    (hk : HoldsDownTo upper k) :
    Keeps (locking s) (fun sub k' => Cached s k'.blobs level index sub)
      (resolve s build (.ofNat level index)) k := by
  refine keeps_withLock_locking (fun sub blobs => Cached s blobs level index sub)
    (fun _ _ _ h => h.mono) (fun m hm => Nat.lt_of_le_of_lt (hk m hm) hupper) fun k' hunder => ?_
  have hmem : Node.ofNat level index ∈ k'.held := hunder.1.symm ▸ List.mem_cons_self
  refine Keeps.run_bind (keeps_fetchDecoded_locking hreload hmem)
    (fun e k'' hk' => .error (hunder.later hk') e) fun found k'' hk' hfound => ?_
  have hunder' := hunder.later hk'
  cases found with
  | some sub =>
    exact fun k₃ hk₃ => .ok (hunder'.later hk₃) ((hfound.2 sub rfl).mono hk₃.2.kept)
  | none =>
    have hbuild := hbuild k'' (hunder'.holdsDownTo hk (Nat.le_of_lt hupper))
    refine run_map_keeps (keeps_buildAndSave_locking hs hroot hi (hk.not_mem hupper) hunder'
      (hfound.1 rfl) hbuild) fun r k₃ k₄ hr hk₄ => ?_
    refine EndsUnder.later (fun _ _ _ h => h.mono) (hr.map fun result h => ?_) hk₄
    exact ⟨result.2, h⟩

/-- **A request that succeeds leaves its bytes in the cache.** -/
theorem keeps_get_locking (hs : s.Valid) (hreload : s.reload = false) (t : Tile) (blobs : Blobs) :
    Keeps (locking s) (fun bytes k' => k'.blobs t.node = some bytes) (get s t) ⟨[], blobs⟩ := by
  refine keeps_get fun hroot => ?_
  obtain ⟨hmin, hranks⟩ := hs.isRankRoot_iff.1 hroot
  rw [t.node_eq_ofNat]
  have hlasting : Lasting fun bytes (blobs : Blobs) =>
      blobs (.ofNat t.level t.morton.toNat) = some bytes := fun _ _ _ h hkept => hkept _ _ h
  refine keeps_withLock_locking _ hlasting (fun _ h => nomatch h) fun k hunder => ?_
  have hmem : Node.ofNat t.level t.morton.toNat ∈ k.held := hunder.1.symm ▸ List.mem_cons_self
  unfold fetchBytes
  simp only [hreload]
  refine Keeps.run_bind (keeps_fetch_locking hmem)
    (fun e k' hk => .error (hunder.later hk) e) fun found k' hk hfound => ?_
  have hunder' := hunder.later hk
  cases found with
  | some blob =>
    refine Keeps.run_bind (keeps_note (locking_quiet s) _)
      (fun e k₁ hk₁ => .error (hunder'.later hk₁) e) fun _ k₁ hk₁ _ k₂ hk₂ => ?_
    have hk₂ := (locking s).trans hk₁ hk₂
    exact .ok (hunder'.later hk₂) (hk₂.2.kept _ _ hfound.1)
  | none =>
    have hnone : HoldsDownTo 0 ⟨[], blobs⟩ := fun _ h => nomatch h
    have hready : HoldsDownTo t.level k' :=
      hunder'.holdsDownTo hnone (Nat.zero_le _)
    have hbuild := keeps_buildRank (locking_quiet s)
      (fun _ _ _ _ _ h hk => h.mono hk.2.kept) (fun _ _ _ _ h => h.levels_eq hs) hs
      HoldsDownTo (fun _ _ _ h hk m hm => h m (hk.1 ▸ hm))
      (fun hupper hroot hi hbuild k hk => keeps_resolve_locking hs hreload hupper hroot hi hbuild hk)
      hmin hranks t.morton_lt hready
    refine run_map_keeps (keeps_buildAndSave_locking hs hroot t.morton_lt List.not_mem_nil hunder'
      hfound.1 hbuild) fun r k₃ k₄ hr hk₄ => ?_
    exact EndsUnder.later hlasting (hr.map fun _ h => h.1) hk₄

end

end Store

end ImplicitTiling
