import ImplicitTiling.Proofs.Store.Coherence
import ImplicitTiling.Proofs.Store.Protocol

/-!
# Building under a protocol

Under any protocol that lets the store ask the oracle as it likes, whatever it is answered, the store
builds coherent subtrees out of what the rank roots below are resolved to (`keeps_buildRank`). How a
rank root is resolved is left to the protocol, and so is what has to be known before it is.
-/

namespace ImplicitTiling

/-- The oracle may be asked and the journal written at any time, and neither changes anything. -/
structure Protocol.Quiet {κ : Type} (P : Protocol κ) : Prop where
  query : ∀ k n, P.Asks k (.query n) ∧
    ∀ answer k', P.Answers k (.query n) answer k' → P.Meanwhile k k'
  note : ∀ k r, P.Asks k (.note r) ∧
    ∀ answer k', P.Answers k (.note r) answer k' → P.Meanwhile k k'

namespace Store

/-- A coherent subtree at a rank root. -/
structure CoherentRank (s : Schedule) (resolved : Nat → Nat → Subtree → Prop) (level index : Nat)
    (t : Subtree) : Prop where
  deepest : level = s.maxRankRoot → CoherentDeepest s.subtreeLevels t
  above : level < s.maxRankRoot → Coherent resolved level index s.subtreeLevels t

theorem CoherentRank.levels_eq {s : Schedule} {resolved : Nat → Nat → Subtree → Prop}
    {level index : Nat} {t : Subtree} (h : CoherentRank s resolved level index t)
    (hl : level ≤ s.maxRankRoot) : t.levels = s.subtreeLevels := by
  rcases Nat.eq_or_lt_of_le hl with hl | hl
  · exact (h.deepest hl).levels_eq
  · exact (h.above hl).levels_eq

open Build

section

variable {κ : Type} {P : Protocol κ} (hquiet : P.Quiet) {s : Schedule} {k : κ}

include hquiet

theorem keeps_query (n : Node) : Keeps P (fun _ _ => True) (query n) k :=
  Keeps.ask (.query n) (fun k' _ => (hquiet.query k' n).1) fun k' answer k'' hk ha =>
    ⟨P.trans hk ((hquiet.query k' n).2 answer k'' ha), fun _ _ _ _ => trivial⟩

theorem keeps_note (r : Record) : Keeps P (fun _ _ => True) (note r) k :=
  Keeps.ask (.note r) (fun k' _ => (hquiet.note k' r).1) fun k' answer k'' hk ha =>
    ⟨P.trans hk ((hquiet.note k' r).2 answer k'' ha), fun _ _ _ _ => trivial⟩

/-! ## The deepest rank -/

theorem keeps_scanLeaves (n : Node) (depth : Nat) :
    Keeps P (fun leaves _ => leaves.size = 4 ^ depth) (scanLeaves n depth) k := by
  refine Keeps.foldlM (fun leaves : Bitset => leaves.size = 4 ^ depth) ?_ (Bitset.size_empty _)
  intro i leaves k' _ hsize
  refine (keeps_query hquiet _).bind fun found _ _ _ => .pure fun _ _ => ?_
  split
  · rw [Bitset.size_set, hsize]
  · exact hsize

theorem keeps_buildDeepest (hs : s.Valid) (n : Node) :
    Keeps P (fun t _ => CoherentDeepest s.subtreeLevels t) (buildDeepest s n) k := by
  refine (keeps_query hquiet n).bind fun found _ _ _ => ?_
  cases found with
  | false =>
    exact (keeps_note hquiet _).bind fun _ _ _ _ => .pure fun _ _ => coherentDeepest_empty _
  | true =>
    refine (keeps_scanLeaves hquiet n _).bind fun leaves _ _ hsize => ?_
    obtain ⟨tiles, t, htiles, hcontent, ht, hcoherent⟩ := exists_coherentDeepest hs hsize
    refine (Keeps.check_eq htiles).bind ?_
    intro tiles' _ _ htiles'
    refine (Keeps.check_eq hcontent).bind ?_
    intro content _ _ hcontent'
    rw [htiles', hcontent']
    exact Keeps.check ht fun _ _ => hcoherent

/-! ## The ranks above -/

variable {resolved : κ → Nat → Nat → Subtree → Prop}
  (hresolved : ∀ ⦃k k' level index sub⦄, resolved k level index sub → P.Meanwhile k k' →
    resolved k' level index sub)
  {ready : κ → Prop} (hready : ∀ ⦃k k'⦄, ready k → P.Meanwhile k k' → ready k')
  (hlevels : ∀ ⦃k level index sub⦄, resolved k level index sub → sub.levels = s.subtreeLevels)
  {resolve : Node → Build Subtree} {level index : Nat}

include hresolved hready hlevels in
omit hquiet in
/-- The last level of a rank is told by what the roots of the next rank are resolved to. -/
theorem keeps_descend_last (hs : s.Valid) (hl : level < 32) (hi : index < 4 ^ level)
    (hresolve : ∀ m < 4 ^ (level + 1), ∀ k, ready k →
      Keeps P (fun sub k' => resolved k' (level + 1) m sub) (resolve (.ofNat (level + 1) m)) k)
    (hk : ready k) :
    Keeps P (fun t k' => Coherent (resolved k') level index 1 t) (do
      let parts ← quadrants.mapM fun q => do
        check (← resolve ((Node.ofNat level index).child q)).summary
      let joined ← check (Subtree.concatenate parts)
      check joined.summary) k := by
  refine (Keeps.mapM_quadrants (fun q r k' => ∃ sub,
    resolved k' (level + 1) (4 * index + q) sub ∧ Subtree.IsSummary sub r) ?_ ?_).bind ?_
  · rintro q r k k' ⟨sub, hsub, hsummary⟩ hk
    exact ⟨sub, hresolved hsub hk, hsummary⟩
  · intro q hq k' hk'
    rw [Node.child_ofNat hl hi hq]
    refine (hresolve _ (Node.child_lt hi hq) k' (hready hk hk')).bind fun sub k'' _ hsub => ?_
    obtain ⟨r, hr, hsummary⟩ := sub.exists_isSummary (hlevels hsub ▸ hs.levels_pos)
    exact Keeps.check hr fun _ hk => ⟨sub, hresolved hsub hk, hsummary⟩
  rintro parts k' - ⟨h4, hparts⟩
  have hone : ∀ r ∈ parts, r.levels = 1 := by
    intro r hr
    obtain ⟨q, hq, rfl⟩ := List.getElem_of_mem hr
    obtain ⟨sub, -, hsummary⟩ := hparts q hq
    exact hsummary.levels_eq
  obtain ⟨joined, hjoined, hjoin⟩ := Subtree.exists_isJoin h4 hone (Nat.le_refl 1)
  obtain ⟨t, ht, hsummary⟩ := joined.exists_isSummary (by rw [hjoin.levels_eq]; decide)
  refine (Keeps.check_eq hjoined).bind ?_
  rintro _ k'' hk rfl
  refine Keeps.check ht fun k₃ hk₃ => Coherent.summarize hjoin hsummary h4 fun q hq => ?_
  obtain ⟨sub, hsub, hr⟩ := hparts q hq
  exact ⟨sub, hresolved hsub (P.trans hk hk₃), hr⟩

include hresolved hready in
omit hquiet in
theorem keeps_descend_inside {levels : Nat} (h1 : 1 ≤ levels) (hl : level < 32)
    (hi : index < 4 ^ level)
    (hquadrant : ∀ m < 4 ^ (level + 1), ∀ k, ready k →
      Keeps P (fun t k' => Coherent (resolved k') (level + 1) m levels t)
        (descend resolve levels (.ofNat (level + 1) m)) k)
    (hk : ready k) :
    Keeps P (fun t k' => Coherent (resolved k') level index (levels + 1) t) (do
      let parts ← quadrants.mapM fun q =>
        descend resolve levels ((Node.ofNat level index).child q)
      check (Subtree.concatenate parts)) k := by
  have hmono {level index : Nat} {t : Subtree} {k k' : κ}
      (h : Coherent (resolved k) level index levels t) (hk : P.Meanwhile k k') :
      Coherent (resolved k') level index levels t :=
    h.mono fun _ _ _ hsub => hresolved hsub hk
  refine (Keeps.mapM_quadrants (fun q part k' =>
    Coherent (resolved k') (level + 1) (4 * index + q) levels part) hmono ?_).bind ?_
  · intro q hq k' hk'
    rw [Node.child_ofNat hl hi hq]
    exact hquadrant _ (Node.child_lt hi hq) k' (hready hk hk')
  rintro parts k' - ⟨h4, hparts⟩
  have hlevels : ∀ part ∈ parts, part.levels = levels := by
    intro part hpart
    obtain ⟨q, hq, rfl⟩ := List.getElem_of_mem hpart
    exact (hparts q hq).levels_eq
  obtain ⟨t, ht, hjoin⟩ := Subtree.exists_isJoin h4 hlevels h1
  exact Keeps.check ht fun k'' hk => Coherent.join hjoin h4 h1 fun q hq =>
    hmono (hparts q hq) hk

include hresolved hready hlevels in
/-- Going down a rank makes coherent subtrees, provided the roots of the next rank are resolved. -/
theorem keeps_descend (hs : s.Valid) {root : Nat} (hroot : root ≤ 32)
    (hresolve : ∀ m < 4 ^ root, ∀ k, ready k →
      Keeps P (fun sub k' => resolved k' root m sub) (resolve (.ofNat root m)) k)
    {levels : Nat} (h1 : 1 ≤ levels) (hl : level + levels = root) (hi : index < 4 ^ level)
    (hk : ready k) :
    Keeps P (fun t k' => Coherent (resolved k') level index levels t)
      (descend resolve levels (.ofNat level index)) k := by
  induction levels generalizing level index k with
  | zero => exact absurd h1 (by decide)
  | succ levels ih =>
    refine (keeps_query hquiet _).bind fun found k' hk' _ => ?_
    cases found with
    | false =>
      exact (keeps_note hquiet _).bind fun _ _ _ _ => .pure fun _ _ => coherent_empty _ _ _ _
    | true =>
      by_cases h0 : levels = 0
      · subst h0
        subst hl
        exact keeps_descend_last hresolved hready hlevels hs hroot hi hresolve (hready hk hk')
      · simp only [if_neg h0, if_true]
        exact keeps_descend_inside hresolved hready (by omega) (by omega) hi
          (fun m hm k => ih (by omega) (by omega) hm) (hready hk hk')

omit hready in
include hresolved hlevels in
/-- **Every rank is built coherently.** Rank roots are resolved by `Store.resolve`, which has to make
of coherent ranks what counts as resolved. `ready level` is what is known while a rank with its root
at that level is built. -/
theorem keeps_buildRank (hs : s.Valid) (ready : Nat → κ → Prop)
    (hready : ∀ level ⦃k k'⦄, ready level k → P.Meanwhile k k' → ready level k')
    (hresolve : ∀ {upper level index : Nat} {build : Node → Build Subtree}, upper < level →
      s.isRankRoot level = true → index < 4 ^ level →
      (∀ k, ready level k → Keeps P (fun t k' => CoherentRank s (resolved k') level index t)
        (build (.ofNat level index)) k) →
      ∀ k, ready upper k → Keeps P (fun sub k' => resolved k' level index sub)
        (Store.resolve s build (.ofNat level index)) k)
    {ranks : Nat} (hmin : s.minLevel ≤ level)
    (hl : level + ranks * s.subtreeLevels = s.maxRankRoot) (hi : index < 4 ^ level)
    (hk : ready level k) :
    Keeps P (fun t k' => CoherentRank s (resolved k') level index t)
      (buildRank s ranks (.ofNat level index)) k := by
  induction ranks generalizing level index k with
  | zero =>
    refine (keeps_buildDeepest hquiet hs _).mono fun t _ _ ht => ⟨fun _ => ht, fun hlt => ?_⟩
    exact absurd hlt (by omega)
  | succ ranks ih =>
    have hmax := hs.max_lt
    have hlast := hs.maxRankRoot_le_maxLevel
    have hpos := hs.levels_pos
    rw [Nat.succ_mul] at hl
    have hnext : level + s.subtreeLevels + ranks * s.subtreeLevels = s.maxRankRoot := by omega
    have hroot := hs.isRankRoot_of_add (by omega) hnext
    refine (keeps_descend hquiet hresolved (hready level) hlevels hs (by omega) ?_ hpos rfl hi
      hk).mono ?_
    · exact fun m hm k => hresolve (by omega) hroot hm (fun k => ih (by omega) hnext hm) k
    · exact fun t _ _ ht => ⟨fun heq => absurd heq (by omega), fun _ => ht⟩

end

/-! ## Requests -/

theorem keeps_get {κ : Type} {P : Protocol κ} {s : Schedule} {t : Tile} {k : κ}
    {post : ByteArray → κ → Prop}
    (h : s.isRankRoot t.level = true → Keeps P post (withLock t.node do
      match ← fetchBytes s t.node with
      | some bytes =>
        note (.served t)
        return bytes
      | none => return (← buildAndSave (buildRank s (s.ranksBelow t.level)) t.node).2) k) :
    Keeps P post (get s t) k := by
  rcases get_cases s t with ⟨-, e, hget⟩ | ⟨hroot, hin⟩
  · rw [hget]
    exact .throw e
  · rw [get_eq_withLock hroot hin]
    exact h hroot

end Store

end ImplicitTiling
