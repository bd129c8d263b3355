import ImplicitTiling.Json.Fields
import ImplicitTiling.Proofs.Json.RoundTrip

/-!
# Records read back

What a record of named fields gives its reader (`fields?_record`), and what records and lists have
of their parts: that they survive their text, are plain and are nested no deeper.
-/

namespace ImplicitTiling.Json

@[simp] theorem namedMembers?_map (members : List (String × Json)) :
    namedMembers? (members.map fun (name, v) => (some name, v)) = some members := by
  unfold namedMembers?
  induction members with
  | nil => rfl
  | cons m members ih => simp [List.mapM_cons, ih]

theorem fields?_record {names : List String} {members : List (String × Json)}
    (h : (names.any fun name => 1 < members.countP (·.1 == name)) = false) :
    fields? names (record members) = some (names.map fun name => List.lookup name members) := by
  unfold record
  simp only [fields?, namedMembers?_map, h]
  rfl

theorem toNat?_ofNat {bound n : Nat} (h : n < bound) : toNat? bound (ofNat n) = some n :=
  Numeral.toNat?_ofNat h

theorem required_ofNat {bound n : Nat} (h : n < bound) :
    required (toNat? bound) (some (ofNat n)) = some n :=
  toNat?_ofNat h

theorem optional_none {α : Type} (read : Json → Option α) :
    Json.optional read none = some none :=
  rfl

/-- A member that is left out where there is no value is read back. -/
theorem optional_map {α : Type} {read : Json → Option α} {write : α → Json} {a : Option α}
    (hnull : ∀ b, write b ≠ .null) (h : ∀ b ∈ a, read (write b) = some b) :
    Json.optional read (a.map write) = some a := by
  cases a with
  | none => rfl
  | some b =>
    have hread := h b rfl
    show Json.optional read (some (write b)) = _
    unfold Json.optional
    split
    · next heq => cases heq
    · next heq => exact absurd (Option.some.inj heq) (hnull b)
    · next heq =>
      cases heq
      rw [hread]
      rfl

theorem optional_ofNat {bound n : Nat} (h : n < bound) :
    Json.optional (toNat? bound) (some (ofNat n)) = some (some n) :=
  optional_map (a := some n) (fun k => nofun) fun k hk => by
    cases hk
    exact toNat?_ofNat h

theorem isPlain_ofNat {n : Nat} (h : n < 2 ^ 64) : isPlain (ofNat n) = true := by
  unfold isPlain
  rw [Numeral.toNat?_ofNat h]
  rfl

theorem isPlain_record {members : List (String × Json)} (h : ∀ m ∈ members, isPlain m.2 = true) :
    isPlain (record members) = true := by
  unfold record
  rw [isPlain]
  induction members with
  | nil => rfl
  | cons m members ih =>
    rw [List.map_cons, isPlainMembers, h m List.mem_cons_self,
      ih fun m' hm' => h m' (List.mem_cons_of_mem m hm')]
    rfl

theorem isPlain_array_map {α : Type} {f : α → Json} {as : List α}
    (h : ∀ a ∈ as, isPlain (f a) = true) : isPlain (.array (as.map f)) = true := by
  rw [isPlain]
  induction as with
  | nil => rfl
  | cons a as ih =>
    rw [List.map_cons, isPlainItems, h a List.mem_cons_self,
      ih fun b hb => h b (List.mem_cons_of_mem a hb)]
    rfl

theorem depth_record_le {n : Nat} {members : List (String × Json)}
    (h : ∀ m ∈ members, depth m.2 ≤ n) : depth (record members) ≤ n + 1 := by
  unfold record
  rw [depth]
  apply Nat.succ_le_succ
  induction members with
  | nil => exact Nat.zero_le n
  | cons m members ih =>
    rw [List.map_cons, depthMembers]
    exact Nat.max_le.2 ⟨h m List.mem_cons_self, ih fun m' hm' => h m' (List.mem_cons_of_mem m hm')⟩

theorem depth_array_map_le {α : Type} {f : α → Json} {n : Nat} {as : List α}
    (h : ∀ a ∈ as, depth (f a) ≤ n) : depth (.array (as.map f)) ≤ n + 1 := by
  rw [depth]
  apply Nat.succ_le_succ
  induction as with
  | nil => exact Nat.zero_le n
  | cons a as ih =>
    rw [List.map_cons, depthItems]
    exact Nat.max_le.2 ⟨h a List.mem_cons_self, ih fun b hb => h b (List.mem_cons_of_mem a hb)⟩

theorem spelled_ofNat (n : Nat) : Spelled (ofNat n) :=
  .number _ (Numeral.wellFormed_ofNat n)

theorem spelled_record {members : List (String × Json)} (h : ∀ m ∈ members, Spelled m.2) :
    Spelled (record members) := by
  apply Spelled.object
  · intro m hm
    obtain ⟨m', -, rfl⟩ := List.mem_map.1 hm
    rfl
  · intro m hm
    obtain ⟨m', hm', rfl⟩ := List.mem_map.1 hm
    exact h m' hm'

theorem spelled_array_map {α : Type} {f : α → Json} (h : ∀ a, Spelled (f a)) (as : List α) :
    Spelled (.array (as.map f)) := by
  apply Spelled.array
  intro v hv
  obtain ⟨a, -, rfl⟩ := List.mem_map.1 hv
  exact h a

theorem toList?_map {α : Type} {read : Json → Option α} {f : α → Json} {as : List α}
    (h : ∀ a ∈ as, read (f a) = some a) : toList? read (.array (as.map f)) = some as := by
  unfold toList?
  induction as with
  | nil => rfl
  | cons a as ih =>
    have ha := h a List.mem_cons_self
    have has := ih fun b hb => h b (List.mem_cons_of_mem a hb)
    dsimp only at has ⊢
    rw [List.map_cons, List.mapM_cons, ha, has]
    rfl

theorem lt_of_toNat?_eq_some {bound n : Nat} {v : Json} (h : toNat? bound v = some n) :
    n < bound := by
  cases v with
  | number numeral =>
    unfold toNat? Numeral.toNat? at h
    dsimp only at h
    split at h
    · cases h
    · split at h
      · next hlt =>
        cases h
        exact hlt
      · cases h
  | _ => cases h

theorem exists_of_toList?_eq_some {α : Type} {read : Json → Option α} {v : Json} {as : List α}
    (h : toList? read v = some as) {a : α} (ha : a ∈ as) : ∃ v', read v' = some a := by
  cases v with
  | array items =>
    unfold toList? at h
    dsimp only at h
    induction items generalizing as with
    | nil =>
      cases h
      cases ha
    | cons v items ih =>
      rw [List.mapM_cons] at h
      obtain ⟨b, hb, h⟩ := Option.bind_eq_some_iff.1 h
      obtain ⟨bs, hbs, h⟩ := Option.bind_eq_some_iff.1 h
      cases h
      rcases List.mem_cons.1 ha with rfl | ha
      · exact ⟨v, hb⟩
      · exact ih ha hbs
  | _ => cases h

end ImplicitTiling.Json
