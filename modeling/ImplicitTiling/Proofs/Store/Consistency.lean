import ImplicitTiling.Proofs.Store.Answers
import ImplicitTiling.Proofs.Store.Assembly
import ImplicitTiling.Proofs.Subtree.Untrusted

/-!
# Saved subtrees are consistent

The oracle may answer the same tile differently from call to call, and the cache may hold any bytes
under any rank root. Still the rows of every subtree that the store saves fit one another:
`saved_consistent`.
-/

namespace ImplicitTiling.Store

/-- The rows of a subtree at a rank root of a level fit one another and the place of its rank. -/
structure Consistent (s : Schedule) (level : Nat) (t : Subtree) : Prop where
  levels_eq : t.levels = s.subtreeLevels
  /-- A tile exists exactly if one of its children does. -/
  tile : ∀ i, i + 1 < s.subtreeLevels → ∀ j < 4 ^ i, ((t.tiles.row i).get j = true ↔
    ∃ q < 4, (t.tiles.row (i + 1)).get (4 * j + q) = true)
  /-- Above the deepest rank a tile of the last level exists exactly if one of the child subtrees
  below it does. -/
  last : level < s.maxRankRoot → ∀ j < 4 ^ (s.subtreeLevels - 1),
    ((t.tiles.row (s.subtreeLevels - 1)).get j = true ↔
      ∃ q < 4, (t.children.row 0).get (4 * j + q) = true)
  content_above : level < s.maxRankRoot → t.content = .empty s.subtreeLevels .pyramid
  child_deepest : level = s.maxRankRoot → ∀ c, (t.children.row 0).get c = false
  content_deepest : level = s.maxRankRoot → t.content = t.tiles

variable {s : Schedule}

theorem CoherentRank.consistent {resolved : Nat → Nat → Subtree → Prop} {level index : Nat}
    {t : Subtree} (hs : s.Valid) (hl : level ≤ s.maxRankRoot)
    (h : CoherentRank s resolved level index t) : Consistent s level t where
  levels_eq := h.levels_eq hl
  tile i hi j hj := by
    rcases Nat.eq_or_lt_of_le hl with heq | hlt
    · exact (h.deepest heq).tile i hi j
    · have hlevels := h.levels_eq hl
      rw [(h.above hlt).tile i (Nat.lt_of_succ_lt hi) j hj, Subtree.rowBelow, hlevels, if_pos hi]
  last hlt j hj := by
    have hpos := hs.levels_pos
    rw [(h.above hlt).tile _ (by omega) j hj, Subtree.rowBelow, h.levels_eq hl,
      if_neg (by omega)]
  content_above hlt := (h.above hlt).content
  child_deepest heq := (h.deepest heq).child
  content_deepest heq := (h.deepest heq).content

/-! ## Surroundings that may do anything -/

/-- The bytes are those of a coherent subtree at a rank root. -/
def IsCoherentBlob (s : Schedule) (n : Node) (blob : ByteArray) : Prop :=
  s.isRankRoot n.level = true ∧ ∃ t : Subtree, blob = t.encode ∧
    CoherentRank s (fun _ _ sub => sub.levels = s.subtreeLevels) n.level n.index.toNat t

/-- Every request may be answered in every way, and only coherent subtrees may be saved. -/
def unreliable (s : Schedule) : Protocol Unit where
  Meanwhile _ _ := True
  refl _ := trivial
  trans _ _ := trivial
  Asks
    | _, .save n blob => IsCoherentBlob s n blob
    | _, _ => True
  Answers _ _ _ _ := True

theorem unreliable_quiet (s : Schedule) : (unreliable s).Quiet where
  query _ _ := ⟨trivial, fun _ _ _ => trivial⟩
  note _ _ := ⟨trivial, fun _ _ _ => trivial⟩

section

open Build

variable {level index : Nat}

theorem keeps_fetch_unreliable (n : Node) (k : Unit) :
    Keeps (unreliable s) (fun _ _ => True) (fetch n) k :=
  Keeps.ask (.fetch n) (fun _ _ => trivial) fun _ _ _ _ _ => ⟨trivial, fun _ _ _ _ => trivial⟩

theorem keeps_fetchDecoded_unreliable (hs : s.Valid) (n : Node) (k : Unit) :
    Keeps (unreliable s) (fun found _ => ∀ t ∈ found, t.levels = s.subtreeLevels)
      (fetchDecoded s n) k := by
  unfold fetchDecoded
  split
  · exact .pure fun _ _ _ h => nomatch h
  refine (keeps_fetch_unreliable n k).bind fun found _ _ _ => ?_
  cases found with
  | none => exact .pure fun _ _ _ h => nomatch h
  | some blob =>
    rcases Subtree.decode_format_or_ok blob hs.levels_pos hs.levels_le with ⟨cause, he⟩ | ⟨t, ht, hl⟩
    · simp only [he]
      exact (keeps_note (unreliable_quiet s) _).bind fun _ _ _ _ => .pure fun _ _ _ h => nomatch h
    · simp only [ht]
      refine .pure fun _ _ t' h => ?_
      rw [← Option.some.inj h]
      exact hl

theorem keeps_buildAndSave_unreliable {build : Node → Build Subtree}
    (hroot : s.isRankRoot level = true) (hlt : index < 2 ^ 64)
    (hbuild : ∀ k, Keeps (unreliable s)
      (fun t _ => CoherentRank s (fun _ _ sub => sub.levels = s.subtreeLevels) level index t)
      (build (.ofNat level index)) k) (k : Unit) :
    Keeps (unreliable s)
      (fun result _ =>
        CoherentRank s (fun _ _ sub => sub.levels = s.subtreeLevels) level index result.1)
      (buildAndSave build (.ofNat level index)) k := by
  refine (hbuild k).bind fun t _ _ ht => ?_
  have hblob : IsCoherentBlob s (.ofNat level index) t.encode := by
    refine ⟨hroot, t, rfl, ?_⟩
    rw [show (Node.ofNat level index).index.toNat = index from Node.toNat_toUInt64 hlt]
    exact ht
  have hsave (k : Unit) :
      Keeps (unreliable s) (fun _ _ => True) (save (.ofNat level index) t.encode) k :=
    Keeps.ask (.save _ _) (fun _ _ => hblob) fun _ _ _ _ _ => ⟨trivial, fun _ _ _ _ => trivial⟩
  refine (hsave _).bind fun _ _ _ _ => ?_
  exact (keeps_note (unreliable_quiet s) _).bind fun _ _ _ _ => .pure fun _ _ => ht

theorem keeps_withLock_unreliable {α : Type} {post : α → Unit → Prop} {n : Node} {body : Build α}
    {k : Unit} (h : Keeps (unreliable s) post body k) :
    Keeps (unreliable s) post (withLock n body) k :=
  Keeps.withLock (fun r k => True ∧ ∀ a, r = .ok a → post a k) (fun h _ => h)
    (fun _ _ => ⟨trivial, fun _ _ => h⟩) fun _ _ hr =>
      ⟨trivial, fun _ _ => ⟨trivial, fun a ha _ _ => hr.2 a ha⟩⟩

theorem keeps_resolve_unreliable (hs : s.Valid) {build : Node → Build Subtree}
    (hroot : s.isRankRoot level = true) (hi : index < 4 ^ level)
    (hbuild : ∀ k, Keeps (unreliable s)
      (fun t _ => CoherentRank s (fun _ _ sub => sub.levels = s.subtreeLevels) level index t)
      (build (.ofNat level index)) k) (k : Unit) :
    Keeps (unreliable s) (fun sub _ => sub.levels = s.subtreeLevels)
      (resolve s build (.ofNat level index)) k := by
  have hle := hs.le_maxRankRoot hroot
  have hlt : index < 2 ^ 64 :=
    Nat.lt_of_lt_of_le hi (Node.four_pow_le_word (hs.level_lt hroot).le)
  refine keeps_withLock_unreliable
    ((keeps_fetchDecoded_unreliable hs _ k).bind fun found _ _ hfound => ?_)
  cases found with
  | some t => exact .pure fun _ _ => hfound t rfl
  | none =>
    exact (keeps_buildAndSave_unreliable hroot hlt hbuild _).bind fun result _ _ h =>
      .pure fun _ _ => h.levels_eq (by omega)

theorem keeps_fetchBytes_unreliable (n : Node) (k : Unit) :
    Keeps (unreliable s) (fun _ _ => True) (fetchBytes s n) k := by
  unfold fetchBytes
  split
  · exact .pure fun _ _ => trivial
  · exact keeps_fetch_unreliable n k

/-- Whatever the surroundings answer, a request saves nothing but coherent subtrees. -/
theorem keeps_get_unreliable (hs : s.Valid) (t : Tile) (k : Unit) :
    Keeps (unreliable s) (fun _ _ => True) (get s t) k := by
  refine keeps_get fun hroot => keeps_withLock_unreliable ?_
  obtain ⟨hmin, hranks⟩ := hs.isRankRoot_iff.1 hroot
  rw [t.node_eq_ofNat]
  refine (keeps_fetchBytes_unreliable _ k).bind fun found _ _ _ => ?_
  cases found with
  | some blob =>
    exact (keeps_note (unreliable_quiet s) _).bind fun _ _ _ _ => .pure fun _ _ => trivial
  | none =>
    have hbuild (k : Unit) := keeps_buildRank (unreliable_quiet s) (fun _ _ _ _ _ h _ => h)
      (fun _ _ _ _ h => h) hs (fun _ _ => True) (fun _ _ _ _ _ => trivial)
      (fun _ hroot hi hbuild k _ =>
        keeps_resolve_unreliable hs hroot hi (fun k => hbuild k trivial) k)
      hmin hranks t.morton_lt (k := k) trivial
    exact (keeps_buildAndSave_unreliable hroot t.morton.toNat_lt hbuild _).bind
      fun _ _ _ _ => .pure fun _ _ => trivial

end

/-! ## Sessions -/

variable {σ : Type} {oracle : Oracle} {cache : BlobCache (StateM σ)}

/-- Every session, with any oracle and any cache, answers as unreliable surroundings may. -/
theorem answer_unreliable (a : Action) (k : Unit) (session : Session σ)
    (hasks : (unreliable s).Asks k a)
    (hsaved : ∀ n blob answer, .saved n blob answer ∈ session.events → IsCoherentBlob s n blob) :
    ∀ n blob answer,
      .saved n blob answer ∈ ((Session.answer oracle cache a).run session).2.events →
      IsCoherentBlob s n blob := by
  obtain ⟨c, calls, events⟩ := session
  have hcons (e : Event) (he : ∀ n blob answer, e = .saved n blob answer → IsCoherentBlob s n blob) :
      ∀ n blob answer, .saved n blob answer ∈ e :: events → IsCoherentBlob s n blob := by
    intro n blob answer hmem
    rcases List.mem_cons.1 hmem with rfl | hmem
    · exact he n blob answer rfl
    · exact hsaved n blob answer hmem
  cases a with
  | query n => exact hcons _ fun _ _ _ h => nomatch h
  | fetch n => exact hcons _ fun _ _ _ h => nomatch h
  | save n blob =>
    refine hcons _ fun _ _ _ h => ?_
    cases h
    exact hasks
  | lock n => exact hsaved
  | unlock n => exact hsaved
  | note r => exact hcons _ fun _ _ _ h => nomatch h

/-- **What is saved is consistent.** Whatever the oracle answers to each call, and whatever the cache
holds and answers, a request saves bytes only under rank roots, and they are those of a subtree whose
rows fit one another and the place of its rank. -/
theorem saved_consistent (hs : s.Valid) (oracle : Oracle) (cache : BlobCache (StateM σ)) (t : Tile)
    (state : σ) {n : Node} {blob : ByteArray} {answer : Except Error Unit}
    (h : .saved n blob answer ∈ (Session.perform oracle cache (get s t) ⟨state, 0, []⟩).2.events) :
    s.isRankRoot n.level = true ∧ ∃ sub, blob = Subtree.encode sub ∧
      Subtree.decode blob s.subtreeLevels = .ok sub ∧ Consistent s n.level sub := by
  obtain ⟨k, -, hsaved⟩ := Routine.Keeps.run
    (fun _ (session : Session σ) => ∀ n blob answer, .saved n blob answer ∈ session.events →
      IsCoherentBlob s n blob)
    (fun a k session hasks hsaved => ⟨k, trivial, answer_unreliable a k session hasks hsaved⟩)
    (keeps_get_unreliable hs t ()) (s := ⟨state, 0, []⟩) fun _ _ _ hmem => nomatch hmem
  obtain ⟨hroot, sub, rfl, hsub⟩ := hsaved n blob answer h
  obtain ⟨-, hle⟩ := hs.isRankRoot_iff.1 hroot
  have hl := hsub.levels_eq (by omega)
  refine ⟨hroot, sub, rfl, ?_, hsub.consistent hs (by omega)⟩
  exact Subtree.decode_of_encode hl hs.levels_pos hs.levels_le

/-- The oracle contradicts itself on every third call, and the cache holds three bytes under one of
the rank roots below the one that is requested. -/
theorem saved_consistent_three_bytes : ∃ (oracle : Oracle) (blobs : Blobs) (blob : ByteArray)
    (sub : Subtree), oracle 0 ≠ oracle 1 ∧ blobs ⟨1, 2⟩ = some ⟨#[1, 2, 3]⟩ ∧
      .saved ⟨0, 0⟩ blob (.ok ()) ∈ (Session.perform oracle Blobs.cache
        (get ⟨0, 1, 1, false⟩ ⟨0, 0, 0⟩) ⟨blobs, 0, []⟩).2.events ∧
      Subtree.decode blob 1 = .ok sub ∧ Consistent ⟨0, 1, 1, false⟩ 0 sub := by
  let oracle : Oracle := fun calls _ => .ok (calls % 3 != 1)
  let blobs : Blobs := fun n => if n = ⟨1, 2⟩ then some ⟨#[1, 2, 3]⟩ else none
  have hs : Schedule.Valid ⟨0, 1, 1, false⟩ := (Schedule.validate_eq_ok_iff _).1 rfl
  have hany : (Session.perform oracle Blobs.cache (get ⟨0, 1, 1, false⟩ ⟨0, 0, 0⟩)
      ⟨blobs, 0, []⟩).2.events.any (fun
        | .saved n _ (.ok _) => n == ⟨0, 0⟩
        | _ => false) = true := by decide +kernel
  obtain ⟨e, hmem, he⟩ := List.any_eq_true.1 hany
  split at he
  · next n blob _ =>
    obtain rfl : n = ⟨0, 0⟩ := eq_of_beq he
    obtain ⟨-, sub, -, hsub, hconsistent⟩ :=
      saved_consistent hs oracle Blobs.cache ⟨0, 0, 0⟩ blobs hmem
    refine ⟨oracle, blobs, blob, sub, ?_, rfl, hmem, hsub, hconsistent⟩
    exact fun h => absurd (congrFun h ⟨0, 0⟩) (by decide)
  · cases he

end ImplicitTiling.Store
