import ImplicitTiling.Tileset.Uri
import Mathlib.Data.List.Find
import Mathlib.Data.List.Nodup
import Std.Data.String.ToNat

/-!
# Templates filled at once

`expand` puts the three numbers of a tile in one after another, each into what the last one left.
That makes the single pass `fill` over the template, in whatever order the numbers are put in
(`replaceEach_eq_fill`, `fill_perm`).

1. What a filled template spells without digits, the template spells itself
   (`isPrefix_of_isPrefix_fill`). Names of placeholders hold no digits, so numbers that are put in
   complete no placeholder.
2. Digits hold no brace and a placeholder none but its own two, so no pass breaks up what another
   one replaces. Filling in two steps is filling at once (`fill_fill`).
3. At most one placeholder begins at a place, so the order of the names is no concern (`fill_perm`).
-/

namespace ImplicitTiling.Uri

/-! ## Digits -/

theorem digits_eq (n : Nat) : digits n = Nat.toDigits 10 n :=
  Nat.toList_repr

theorem isDigit_of_mem_digits {n : Nat} {c : Char} (h : c ∈ digits n) : c.isDigit = true := by
  rw [digits_eq] at h
  exact Nat.isDigit_of_mem_toDigits (by decide) (by decide) h

theorem not_mem_digits {c : Char} (hc : c.isDigit = false) (n : Nat) : c ∉ digits n := by
  intro h
  rw [isDigit_of_mem_digits h] at hc
  cases hc

theorem digits_injective {n n' : Nat} (h : digits n = digits n') : n = n' :=
  Nat.repr_injective (String.toList_inj.1 h)

theorem digits_ne_nil (n : Nat) : digits n ≠ [] := by
  rw [digits_eq]
  exact Nat.toDigits_ne_nil

/-! ## Placeholders -/

/-- The numbers of a tile under the names of their placeholders. -/
def numbers (t : Tile) : List (String × Nat) :=
  [("level", t.level), ("x", t.x.toNat), ("y", t.y.toNat)]

/-- Replaces placeholders one after another, each wherever it stands by then. -/
def replaceEach (values : List (String × Nat)) (s : List Char) : List Char :=
  values.foldl (fun s v => replace (placeholder v.1) (digits v.2) s) s

theorem expand_eq_replaceEach (template : String) (t : Tile) :
    expand template t = String.ofList (replaceEach (numbers t) template.toList) :=
  rfl

/-! ## The single pass -/

/-- The first value whose placeholder a text starts with. -/
def hit? (values : List (String × Nat)) (s : List Char) : Option (String × Nat) :=
  values.find? fun v => (placeholder v.1).isPrefixOf s

/-- A single pass from the left on: a placeholder that begins here becomes its number, and any other
character stays. The next `skipped` characters, which belong to a placeholder, are passed. -/
def fillFrom (values : List (String × Nat)) : Nat → List Char → List Char
  | _, [] => []
  | skipped + 1, _ :: s => fillFrom values skipped s
  | 0, c :: s =>
    match hit? values (c :: s) with
    | some v => digits v.2 ++ fillFrom values ((placeholder v.1).length - 1) s
    | none => c :: fillFrom values 0 s

/-- Puts all numbers in for their placeholders at once. -/
def fill (values : List (String × Nat)) (s : List Char) : List Char :=
  fillFrom values 0 s

variable {values values' : List (String × Nat)} {v : String × Nat} {c : Char} {s : List Char}

theorem fillFrom_append (skipped s : List Char) :
    fillFrom values skipped.length (skipped ++ s) = fill values s := by
  induction skipped with
  | nil => rfl
  | cons c skipped ih => exact ih

theorem fill_placeholder (h : hit? values (placeholder v.1 ++ s) = some v) :
    fill values (placeholder v.1 ++ s) = digits v.2 ++ fill values s := by
  have hcons : placeholder v.1 ++ s = '\x7b' :: ((placeholder v.1).tail ++ s) := rfl
  rw [hcons] at h ⊢
  rw [fill, fillFrom, h, ← fillFrom_append (placeholder v.1).tail s, List.length_tail]

theorem fill_cons (h : hit? values (c :: s) = none) :
    fill values (c :: s) = c :: fill values s := by
  rw [fill, fillFrom, h]
  rfl

theorem exists_of_hit? (h : hit? values s = some v) :
    v ∈ values ∧ ∃ s', s = placeholder v.1 ++ s' := by
  refine ⟨List.mem_of_find?_eq_some h, ?_⟩
  have hprefix := List.find?_some h
  obtain ⟨s', hs⟩ := List.isPrefixOf_iff_prefix.1 hprefix
  exact ⟨s', hs.symm⟩

theorem hit?_eq_none (h : c ≠ '\x7b') (s : List Char) : hit? values (c :: s) = none := by
  cases hhit : hit? values (c :: s) with
  | none => rfl
  | some v =>
    obtain ⟨-, s', hs⟩ := exists_of_hit? hhit
    exact absurd (List.cons.inj hs).1 h

/-- Nothing is filled in before the first opening brace. -/
theorem fill_append (h : '\x7b' ∉ s) (rest : List Char) :
    fill values (s ++ rest) = s ++ fill values rest := by
  induction s with
  | nil => rfl
  | cons c s ih =>
    rw [List.mem_cons, not_or] at h
    rw [List.cons_append, fill_cons (hit?_eq_none (Ne.symm h.1) _), ih h.2, List.cons_append]

/-! ## Names -/

/-- A name of a placeholder: no braces and no digits. -/
def IsName (name : String) : Prop :=
  ∀ c ∈ name.toList, c ≠ '\x7b' ∧ c ≠ '\x7d' ∧ c.isDigit = false

instance (name : String) : Decidable (IsName name) :=
  List.decidableBAll _ name.toList

/-- Names of placeholders only. -/
def Named (values : List (String × Nat)) : Prop :=
  ∀ v ∈ values, IsName v.1

variable {name name' : String}

theorem append_cons_inj {p : Char → Bool} {c : Char} (hc : p c = false)
    {l l' s s' : List Char} (hl : ∀ a ∈ l, p a = true) (hl' : ∀ a ∈ l', p a = true)
    (h : l ++ c :: s = l' ++ c :: s') : l = l' ∧ s = s' := by
  have htake {l : List Char} (hl : ∀ a ∈ l, p a = true) (s : List Char) :
      (l ++ c :: s).takeWhile p = l := by
    rw [List.takeWhile_append_of_pos hl, List.takeWhile_cons, hc, if_neg Bool.false_ne_true,
      List.append_nil]
  obtain rfl : l = l' := by
    rw [← htake hl s, h, htake hl']
  exact ⟨rfl, (List.cons.inj (List.append_cancel_left h)).2⟩

theorem placeholder_append_inj (h : IsName name) (h' : IsName name') {s s' : List Char}
    (heq : placeholder name ++ s = placeholder name' ++ s') : name = name' ∧ s = s' := by
  have hclose {name : String} (h : IsName name) : ∀ c ∈ name.toList, (c != '\x7d') = true :=
    fun c hc => bne_iff_ne.2 (h c hc).2.1
  have htail : name.toList ++ '\x7d' :: s = name'.toList ++ '\x7d' :: s' := by
    simpa [placeholder] using heq
  obtain ⟨hname, hs⟩ := append_cons_inj rfl (hclose h) (hclose h') htail
  exact ⟨String.toList_inj.1 hname, hs⟩

/-- Which value hits a placeholder depends on its name only. -/
theorem hit?_placeholder (hvalues : Named values) (hname : IsName name) (s : List Char) :
    hit? values (placeholder name ++ s) = values.find? fun v => v.1 == name := by
  apply List.find?_congr
  intro v hv
  rw [Bool.eq_iff_iff, List.isPrefixOf_iff_prefix, beq_iff_eq]
  constructor
  · rintro ⟨s', hs⟩
    exact (placeholder_append_inj (hvalues v hv) hname hs).1
  · rintro rfl
    exact List.prefix_append _ s

theorem fill_placeholder_append (hname : IsName name)
    (h : hit? values (placeholder name ++ s) = none) :
    fill values (placeholder name ++ s) = placeholder name ++ fill values s := by
  have hrest : '\x7b' ∉ (placeholder name).tail := by
    intro hmem
    rcases List.mem_append.1 hmem with hmem | hmem
    · exact (hname _ hmem).1 rfl
    · cases List.mem_singleton.1 hmem
  have hcons (s : List Char) : placeholder name ++ s = '\x7b' :: ((placeholder name).tail ++ s) :=
    rfl
  rw [hcons] at h
  rw [hcons, fill_cons h, fill_append hrest, hcons]

/-! ## One pass after another -/

/-- What a filled template spells without digits, the template spells itself. -/
theorem isPrefix_of_isPrefix_fill {w : List Char} (hw : ∀ c ∈ w, c.isDigit = false)
    (h : w <+: fill values s) : w <+: s := by
  induction w generalizing s with
  | nil => exact List.nil_prefix
  | cons c w ih =>
    cases s with
    | nil => exact h
    | cons c' s =>
      cases hhit : hit? values (c' :: s) with
      | none =>
        rw [fill_cons hhit, List.cons_prefix_cons] at h
        exact List.cons_prefix_cons.2
          ⟨h.1, ih (fun d hd => hw d (List.mem_cons_of_mem c hd)) h.2⟩
      | some v =>
        -- A filled template starts with a digit here.
        obtain ⟨-, s', hs⟩ := exists_of_hit? hhit
        rw [hs] at hhit h
        rw [fill_placeholder hhit] at h
        obtain ⟨d, ds, hds⟩ := List.exists_cons_of_ne_nil (digits_ne_nil v.2)
        rw [hds, List.cons_append, List.cons_prefix_cons] at h
        have hd := isDigit_of_mem_digits (hds ▸ List.mem_cons_self : d ∈ digits v.2)
        rw [← h.1, hw c List.mem_cons_self] at hd
        cases hd

/-- No placeholder begins in a filled template that did not begin in the template. -/
theorem hit?_cons_fill (hvalues' : Named values') (h : hit? values' (c :: s) = none) :
    hit? values' (c :: fill values s) = none := by
  cases hhit : hit? values' (c :: fill values s) with
  | none => rfl
  | some v =>
    obtain ⟨hmem, s', hs⟩ := exists_of_hit? hhit
    obtain ⟨hc, hs⟩ := List.cons.inj hs
    have hname := hvalues' v hmem
    have htail : ∀ c ∈ v.1.toList ++ ['\x7d'], c.isDigit = false := by
      intro c hc
      rcases List.mem_append.1 hc with hc | hc
      · exact (hname c hc).2.2
      · rw [List.mem_singleton.1 hc]
        rfl
    have hprefix : placeholder v.1 <+: c :: s :=
      List.cons_prefix_cons.2 ⟨hc.symm, isPrefix_of_isPrefix_fill htail ⟨s', hs.symm⟩⟩
    exact absurd (List.isPrefixOf_iff_prefix.2 hprefix) (List.find?_eq_none.1 h v hmem)

/-- Filling in two steps is filling at once. -/
theorem fill_fill (hvalues' : Named values') (s : List Char) :
    fill values' (fill values s) = fill (values ++ values') s := by
  induction hn : s.length using Nat.strong_induction_on generalizing s with
  | h n ih =>
    subst hn
    have hor : hit? (values ++ values') s = (hit? values s).or (hit? values' s) :=
      List.find?_append
    cases hhit : hit? (values ++ values') s with
    | none =>
      cases s with
      | nil => rfl
      | cons c s =>
        obtain ⟨h, h'⟩ := Option.or_eq_none_iff.1 (hor ▸ hhit)
        rw [fill_cons hhit, fill_cons h, fill_cons (hit?_cons_fill hvalues' h'),
          ih s.length (Nat.lt_succ_self _) s rfl]
    | some v =>
      obtain ⟨hmem, s, rfl⟩ := exists_of_hit? hhit
      have hlen : s.length < (placeholder v.1 ++ s).length := by
        simp [placeholder]
        omega
      rw [fill_placeholder hhit, ← ih _ hlen s rfl]
      rw [hor, Option.or_eq_some_iff] at hhit
      rcases hhit with hhit | ⟨hnone, hhit⟩
      · rw [fill_placeholder hhit, fill_append (not_mem_digits rfl v.2)]
      · have hname := hvalues' v (exists_of_hit? hhit).1
        rw [hit?_placeholder hvalues' hname, ← hit?_placeholder hvalues' hname (fill values s)]
          at hhit
        rw [fill_placeholder_append hname hnone, fill_placeholder hhit]

theorem fill_no_values (s : List Char) : fill [] s = s := by
  induction s with
  | nil => rfl
  | cons c s ih => rw [fill_cons rfl, ih]

/-- One replacement is a pass for a single name. -/
theorem replace_eq_fill (name : String) (n : Nat) (s : List Char) :
    replace (placeholder name) (digits n) s = fill [(name, n)] s := by
  suffices h : ∀ skipped s, replaceFrom (placeholder name) (digits n) skipped s =
      fillFrom [(name, n)] skipped s from h 0 s
  intro skipped s
  induction s generalizing skipped with
  | nil => rw [replaceFrom, fillFrom]
  | cons c s ih =>
    cases skipped with
    | succ skipped => exact ih skipped
    | zero =>
      rw [replaceFrom, fillFrom, hit?, List.find?_singleton, ih, ih]
      split <;> rfl

/-- Replacing placeholders one after another is filling them in at once. -/
theorem replaceEach_eq_fill (hvalues : Named values) (s : List Char) :
    replaceEach values s = fill values s := by
  induction values generalizing s with
  | nil => exact (fill_no_values s).symm
  | cons v values ih =>
    have hrest : Named values := fun w hw => hvalues w (List.mem_cons_of_mem v hw)
    show replaceEach values (replace (placeholder v.1) (digits v.2) s) = _
    rw [ih hrest, replace_eq_fill, fill_fill hrest, List.singleton_append]

theorem fill_perm (hvalues : Named values) (hnodup : (values.map Prod.fst).Nodup)
    (h : values.Perm values') (s : List Char) : fill values s = fill values' s := by
  have hhit (s : List Char) : hit? values s = hit? values' s := by
    apply List.find?_eq_find?_of_perm h
    rintro v ⟨hv, hprefix⟩ w ⟨hw, hprefix'⟩
    obtain ⟨s', hs⟩ := List.isPrefixOf_iff_prefix.1 hprefix
    obtain ⟨s'', hs'⟩ := List.isPrefixOf_iff_prefix.1 hprefix'
    have hname := (placeholder_append_inj (hvalues v hv) (hvalues w hw) (hs.trans hs'.symm)).1
    exact List.inj_on_of_nodup_map hnodup hv hw hname
  suffices h : ∀ skipped s, fillFrom values skipped s = fillFrom values' skipped s from h 0 s
  intro skipped s
  induction s generalizing skipped with
  | nil => rw [fillFrom, fillFrom]
  | cons c s ih =>
    cases skipped with
    | succ skipped => exact ih skipped
    | zero => simp only [fillFrom, hhit, ih]

/-! ## The placeholders of tiles -/

theorem named_numbers (t : Tile) : Named (numbers t) := by
  have hname : ∀ name ∈ ["level", "x", "y"], IsName name := by decide
  intro v hv
  exact hname v.1 (List.mem_map_of_mem (f := Prod.fst) hv)

/-- The URI of a tile is its template filled at once. -/
theorem expand_eq_fill (template : String) (t : Tile) :
    expand template t = String.ofList (fill (numbers t) template.toList) := by
  rw [expand_eq_replaceEach, replaceEach_eq_fill (named_numbers t)]

end ImplicitTiling.Uri
