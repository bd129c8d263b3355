import ImplicitTiling.Proofs.Json.Numerals
import ImplicitTiling.Proofs.Json.Strings

/-!
# Values read back

`read?_render`: the text of a value, in either style and with blanks behind it, is read as that
value, provided that every string and name spells text and every numeral is well-formed
(`Spelled`). The bound on how many values a reader may read is no concern: every value takes up at
least one octet (`readsBack_of_spelled`). The text of a numeral on its own is read only if the
numeral is well-formed (`read?_octets_iff`).
-/

namespace ImplicitTiling.Json

/-- Every string and name of a value spells text and every numeral is well-formed. -/
inductive Spelled : Json → Prop
  | null : Spelled .null
  | bool (b : Bool) : Spelled (.bool b)
  | number (n : Numeral) (h : n.WellFormed) : Spelled (.number n)
  | string (s : String) : Spelled (.string (some s))
  | array (items : List Json) (h : ∀ v ∈ items, Spelled v) : Spelled (.array items)
  | object (members : List (Option String × Json))
      (hname : ∀ m ∈ members, m.1.isSome = true) (h : ∀ m ∈ members, Spelled m.2) :
      Spelled (.object members)

/-! ## Blanks -/

/-- A text of blanks only. -/
def Blank (s : List UInt8) : Prop :=
  ∀ o ∈ s, isBlank o = true

theorem skipBlanks_append {b : List UInt8} (hb : Blank b) (s : List UInt8) :
    skipBlanks (b ++ s) = skipBlanks s :=
  List.dropWhile_append_of_pos hb

theorem skipBlanks_cons {o : UInt8} (h : isBlank o = false) (s : List UInt8) :
    skipBlanks (o :: s) = o :: s :=
  List.dropWhile_cons_of_neg (by simp [h])

theorem skipBlanks_blank {b : List UInt8} (hb : Blank b) : skipBlanks b = [] := by
  have := skipBlanks_append hb []
  rwa [List.append_nil] at this

theorem blank_gap (style : Style) : Blank style.gap := by
  intro o ho
  cases style with
  | compact => cases ho
  | indented steps =>
    rcases List.mem_cons.1 ho with rfl | ho
    · rfl
    · rw [List.eq_of_mem_replicate ho]
      rfl

theorem noNumeral_nil : NoNumeral [] := by
  rintro o s h
  cases h

theorem noNumeral_cons {o : UInt8} (h : Digit.ofOctet? o = none ∧ o ≠ 46 ∧ o ≠ 101 ∧ o ≠ 69)
    (s : List UInt8) : NoNumeral (o :: s) := by
  rintro o' s' hs
  cases hs
  exact h

theorem noNumeral_blank_append {b : List UInt8} (hb : Blank b) {s : List UInt8}
    (hs : NoNumeral s) : NoNumeral (b ++ s) := by
  cases b with
  | nil => exact hs
  | cons o b =>
    have ho := hb o List.mem_cons_self
    simp only [isBlank, Bool.or_eq_true, beq_iff_eq] at ho
    apply noNumeral_cons
    rcases ho with ((rfl | rfl) | rfl) | rfl <;> decide

/-! ## Names and heads of values -/

/-- The first octet of a value is no blank and closes no array. -/
def StartsValue (s : List UInt8) : Prop :=
  ∃ o s', s = o :: s' ∧ isBlank o = false ∧ o ≠ 93

theorem StartsValue.append {s : List UInt8} (h : StartsValue s) (t : List UInt8) :
    StartsValue (s ++ t) := by
  obtain ⟨o, s', rfl, h1, h2⟩ := h
  exact ⟨o, s' ++ t, rfl, h1, h2⟩

theorem StartsValue.skipBlanks_eq {s : List UInt8} (h : StartsValue s) : skipBlanks s = s := by
  obtain ⟨o, s', rfl, h1, -⟩ := h
  exact skipBlanks_cons h1 s'

/-- Nothing in a numeral is a blank, closes an array or begins a value of another kind. -/
theorem bounds_of_mem_octets {n : Numeral} {o : UInt8} (h : o ∈ n.octets) :
    isBlank o = false ∧ o ≠ 93 ∧ o ≠ 110 ∧ o ≠ 116 ∧ o ≠ 102 ∧ o ≠ 34 ∧ o ≠ 91 ∧ o ≠ 123 := by
  have hdigit : ∀ d : Digit, isBlank d.octet = false ∧ d.octet ≠ 93 ∧ d.octet ≠ 110 ∧
      d.octet ≠ 116 ∧ d.octet ≠ 102 ∧ d.octet ≠ 34 ∧ d.octet ≠ 91 ∧ d.octet ≠ 123 := by
    decide
  rcases mem_octets h with rfl | rfl | rfl | rfl | ⟨d, rfl⟩
  iterate 4 decide
  exact hdigit d

/-- A numeral starts with a sign or a digit. -/
theorem exists_octets_eq_cons {n : Numeral} (hn : n.WellFormed) : ∃ o s, n.octets = o :: s := by
  obtain ⟨d, ds, hwhole, -⟩ := hn
  rw [octets_eq, hwhole]
  cases n.negative with
  | true => exact ⟨45, _, rfl⟩
  | false => exact ⟨d.octet, _, rfl⟩

theorem startsValue_render {v : Json} (hv : Spelled v) (style : Style) :
    StartsValue (render style v) := by
  cases hv with
  | null => exact ⟨110, _, rfl, by decide⟩
  | bool b => cases b <;> exact ⟨_, _, rfl, by decide⟩
  | number n h =>
    obtain ⟨o, s, heq⟩ := exists_octets_eq_cons h
    obtain ⟨h1, h2, -⟩ := bounds_of_mem_octets (heq ▸ List.mem_cons_self : o ∈ n.octets)
    exact ⟨o, s, by rw [render, heq], h1, h2⟩
  | string s => exact ⟨34, _, rfl, by decide⟩
  | array items h => cases items <;> exact ⟨91, _, rfl, by decide⟩
  | object members hname h =>
    cases members with
    | nil => exact ⟨123, _, rfl, by decide⟩
    | cons m rest => exact ⟨123, _, rfl, by decide⟩

theorem readName?_cons {s rest rest' : List UInt8} {name : Option String}
    (hname : readString? s = some (name, rest)) (hcolon : skipBlanks rest = 58 :: rest') :
    readName? (34 :: s) = some (name, skipBlanks rest') := by
  unfold readName?
  simp only [hname, hcolon]

/-- A name, a colon and the blank behind it are passed over. -/
theorem readName?_append (style : Style) (name : String) {s : List UInt8} (hs : StartsValue s) :
    readName? (quoted (some name) ++ (style.colon ++ s)) = some (some name, s) := by
  have hcolon : skipBlanks (style.colon ++ s) = 58 :: (style.colon.tail ++ s) := by
    cases style <;> rfl
  have htail : skipBlanks (style.colon.tail ++ s) = s := by
    rw [skipBlanks_append, hs.skipBlanks_eq]
    cases style with
    | compact => exact fun o ho => by cases ho
    | indented steps => exact fun o ho => by rw [List.mem_singleton.1 ho]; rfl
  show readName? (34 :: ((Octets.unpack name.toUTF8).flatMap escapeOctet ++ [34] ++
    (style.colon ++ s))) = _
  rw [List.append_assoc, List.singleton_append, readName?_cons (readString?_quoted _ _) hcolon, htail]

/-! ## Values -/

/-- What a reader of values has to do for one value in one style. -/
def ReadsBack (style : Style) (v : Json) : Prop :=
  ∀ (fuel : Nat) (s : List UInt8), NoNumeral s → 2 * (render style v).length ≤ fuel →
    readValue? fuel (render style v ++ s) = some (v, s)

/-- A value that starts like a numeral is read as a number. -/
theorem readValue?_of_mem_octets {n : Numeral} {o : UInt8} (h : o ∈ n.octets) (fuel : Nat)
    (s : List UInt8) :
    readValue? (fuel + 1) (o :: s) =
      (readNumeral? (o :: s)).map fun read => (.number read.1, read.2) := by
  obtain ⟨-, -, h1, h2, h3, h4, h5, h6⟩ := bounds_of_mem_octets h
  rw [readValue?.eq_def]
  split
  · next heq => cases heq
  · next heq => cases heq; exact absurd rfl h1
  · next heq => cases heq; exact absurd rfl h2
  · next heq => cases heq; exact absurd rfl h3
  · next heq => cases heq; exact absurd rfl h4
  · next heq => cases heq; exact absurd rfl h5
  · next heq => cases heq; exact absurd rfl h6
  · rfl

theorem readsBack_number {n : Numeral} (hn : n.WellFormed) (style : Style) :
    ReadsBack style (.number n) := by
  intro fuel s hs hfuel
  have hread := readNumeral?_octets hn hs
  obtain ⟨o, t, ho⟩ := exists_octets_eq_cons hn
  have hmem : o ∈ n.octets := ho ▸ List.mem_cons_self
  rw [render, ho] at hfuel ⊢
  rw [ho] at hread
  cases fuel with
  | zero => simp at hfuel
  | succ fuel =>
    rw [List.cons_append] at hread ⊢
    rw [readValue?_of_mem_octets hmem, hread]
    rfl

theorem readsBack_string (text : String) (style : Style) : ReadsBack style (.string (some text)) := by
  intro fuel s hs hfuel
  cases fuel with
  | zero => exact absurd hfuel (Nat.not_le.2 (by simp [render, quoted]))
  | succ fuel =>
    show (readString? (((Octets.unpack text.toUTF8).flatMap escapeOctet ++ [34]) ++ s)).map
      (fun read => (Json.string read.1, read.2)) = _
    rw [List.append_assoc, List.singleton_append, readString?_quoted]
    rfl

section

variable {style : Style} {b : List UInt8}

theorem readItems?_close {v : Json} (hread : ReadsBack style v) (hb : Blank b) (s : List UInt8)
    {fuel : Nat} (read : List Json) (hfuel : 2 * (render style v).length ≤ fuel) :
    readItems? (fuel + 1) read (render style v ++ (b ++ 93 :: s)) =
      some (.array (v :: read).reverse, s) := by
  have hend : NoNumeral (b ++ 93 :: s) :=
    noNumeral_blank_append hb (noNumeral_cons (by decide) s)
  have hblank : skipBlanks (b ++ 93 :: s) = 93 :: s := by
    rw [skipBlanks_append hb, skipBlanks_cons (by decide)]
  rw [readItems?, hread fuel _ hend hfuel]
  simp only [hblank]

theorem readItems?_comma {v : Json} (hread : ReadsBack style v) {t : List UInt8}
    (ht : StartsValue t) {fuel : Nat} (read : List Json)
    (hfuel : 2 * (render style v).length ≤ fuel) :
    readItems? (fuel + 1) read (render style v ++ 44 :: (style.gap ++ t)) =
      readItems? fuel (v :: read) t := by
  have hend : NoNumeral (44 :: (style.gap ++ t)) := noNumeral_cons (by decide) _
  have hcomma : skipBlanks (44 :: (style.gap ++ t)) = 44 :: (style.gap ++ t) :=
    skipBlanks_cons (by decide) _
  rw [readItems?, hread fuel _ hend hfuel]
  simp only [hcomma]
  rw [skipBlanks_append (blank_gap style), ht.skipBlanks_eq]

/-- The items of an array from one of them on, up to the closing bracket. -/
theorem readItems?_render (hb : Blank b) (s : List UInt8) {v : Json} {items : List Json}
    (hitems : ∀ w ∈ v :: items, Spelled w) (hread : ∀ w ∈ v :: items, ReadsBack style w)
    (fuel : Nat) (read : List Json)
    (hfuel : 2 * (render style v ++ renderItems style items).length + 1 ≤ fuel) :
    readItems? fuel read (render style v ++ (renderItems style items ++ (b ++ 93 :: s))) =
      some (.array (read.reverse ++ v :: items), s) := by
  obtain ⟨fuel, rfl⟩ : ∃ k, fuel = k + 1 := ⟨fuel - 1, by omega⟩
  rw [List.length_append] at hfuel
  induction items generalizing v fuel read with
  | nil =>
    rw [renderItems, List.nil_append,
      readItems?_close (hread v List.mem_cons_self) hb s read (by omega)]
    simp
  | cons w items ih =>
    have hlen : (renderItems style (w :: items)).length =
        style.gap.length + ((render style w).length + (renderItems style items).length) + 1 := by
      simp [renderItems]
    rw [hlen] at hfuel
    obtain ⟨fuel, rfl⟩ : ∃ k, fuel = k + 1 := ⟨fuel - 1, by omega⟩
    have hw := (startsValue_render (hitems w (by simp)) style).append
      (renderItems style items ++ (b ++ 93 :: s))
    have htail : renderItems style (w :: items) ++ (b ++ 93 :: s) =
        44 :: (style.gap ++ (render style w ++ (renderItems style items ++ (b ++ 93 :: s)))) := by
      simp [renderItems]
    rw [htail, readItems?_comma (hread v List.mem_cons_self) hw read (by omega),
      ih (fun u hu => hitems u (List.mem_cons_of_mem v hu))
        (fun u hu => hread u (List.mem_cons_of_mem v hu)) (v :: read) fuel (by omega)]
    simp

/-- The text of one member. -/
def memberText (style : Style) (m : Option String × Json) : List UInt8 :=
  quoted m.1 ++ (style.colon ++ render style m.2)

theorem startsValue_memberText (style : Style) (m : Option String × Json) :
    StartsValue (memberText style m) := by
  obtain ⟨name, v⟩ := m
  cases name <;> exact ⟨34, _, rfl, by decide⟩

/-- The name and the value of a member, with enough fuel for the member as a whole. -/
theorem read_memberText {m : Option String × Json} (hname : m.1.isSome = true)
    (hm : Spelled m.2) (hread : ReadsBack style m.2) {t : List UInt8} (ht : NoNumeral t)
    {fuel : Nat} (hfuel : 2 * (memberText style m).length ≤ fuel) :
    readName? (memberText style m ++ t) = some (m.1, render style m.2 ++ t) ∧
      readValue? fuel (render style m.2 ++ t) = some (m.2, t) := by
  obtain ⟨name, v⟩ := m
  obtain ⟨name, rfl⟩ := Option.isSome_iff_exists.1 hname
  have hlen : (render style v).length ≤ (memberText style (some name, v)).length := by
    simp [memberText]
    omega
  refine ⟨?_, hread fuel t ht (Nat.le_trans (Nat.mul_le_mul_left 2 hlen) hfuel)⟩
  rw [memberText, List.append_assoc, List.append_assoc]
  exact readName?_append style name ((startsValue_render hm style).append t)

theorem readMembers?_close {m : Option String × Json} (hname : m.1.isSome = true)
    (hm : Spelled m.2) (hread : ReadsBack style m.2) (hb : Blank b) (s : List UInt8) {fuel : Nat}
    (read : List (Option String × Json)) (hfuel : 2 * (memberText style m).length ≤ fuel) :
    readMembers? (fuel + 1) read (memberText style m ++ (b ++ 125 :: s)) =
      some (.object (m :: read).reverse, s) := by
  have hend : NoNumeral (b ++ 125 :: s) :=
    noNumeral_blank_append hb (noNumeral_cons (by decide) s)
  obtain ⟨hhead, hvalue⟩ := read_memberText hname hm hread hend hfuel
  have hblank : skipBlanks (b ++ 125 :: s) = 125 :: s := by
    rw [skipBlanks_append hb, skipBlanks_cons (by decide)]
  rw [readMembers?, hhead]
  simp only [hvalue, hblank]

theorem readMembers?_comma {m : Option String × Json} (hname : m.1.isSome = true)
    (hm : Spelled m.2) (hread : ReadsBack style m.2) {t : List UInt8} (ht : StartsValue t)
    {fuel : Nat} (read : List (Option String × Json))
    (hfuel : 2 * (memberText style m).length ≤ fuel) :
    readMembers? (fuel + 1) read (memberText style m ++ 44 :: (style.gap ++ t)) =
      readMembers? fuel (m :: read) t := by
  have hend : NoNumeral (44 :: (style.gap ++ t)) := noNumeral_cons (by decide) _
  obtain ⟨hhead, hvalue⟩ := read_memberText hname hm hread hend hfuel
  have hcomma : skipBlanks (44 :: (style.gap ++ t)) = 44 :: (style.gap ++ t) :=
    skipBlanks_cons (by decide) _
  rw [readMembers?, hhead]
  simp only [hvalue, hcomma]
  rw [skipBlanks_append (blank_gap style), ht.skipBlanks_eq]

/-- The members of an object from one of them on, up to the closing brace. -/
theorem readMembers?_render (hb : Blank b) (s : List UInt8) {m : Option String × Json}
    {members : List (Option String × Json)} (hname : ∀ w ∈ m :: members, w.1.isSome = true)
    (hmembers : ∀ w ∈ m :: members, Spelled w.2)
    (hread : ∀ w ∈ m :: members, ReadsBack style w.2)
    (fuel : Nat) (read : List (Option String × Json))
    (hfuel : 2 * (memberText style m ++ renderMembers style members).length + 1 ≤ fuel) :
    readMembers? fuel read (memberText style m ++ (renderMembers style members ++ (b ++ 125 :: s))) =
      some (.object (read.reverse ++ m :: members), s) := by
  obtain ⟨fuel, rfl⟩ : ∃ k, fuel = k + 1 := ⟨fuel - 1, by omega⟩
  rw [List.length_append] at hfuel
  induction members generalizing m fuel read with
  | nil =>
    rw [renderMembers, List.nil_append, readMembers?_close (hname m List.mem_cons_self)
      (hmembers m List.mem_cons_self) (hread m List.mem_cons_self) hb s read (by omega)]
    simp
  | cons w members ih =>
    have hlen : (renderMembers style (w :: members)).length =
        style.gap.length + ((memberText style w).length + (renderMembers style members).length)
          + 1 := by
      simp [renderMembers, memberText]
      omega
    rw [hlen] at hfuel
    obtain ⟨fuel, rfl⟩ : ∃ k, fuel = k + 1 := ⟨fuel - 1, by omega⟩
    have hw := (startsValue_memberText style w).append
      (renderMembers style members ++ (b ++ 125 :: s))
    have htail : renderMembers style (w :: members) ++ (b ++ 125 :: s) =
        44 :: (style.gap ++
          (memberText style w ++ (renderMembers style members ++ (b ++ 125 :: s)))) := by
      simp [renderMembers, memberText]
    rw [htail, readMembers?_comma (hname m List.mem_cons_self) (hmembers m List.mem_cons_self)
        (hread m List.mem_cons_self) hw read (by omega),
      ih (fun u hu => hname u (List.mem_cons_of_mem m hu))
        (fun u hu => hmembers u (List.mem_cons_of_mem m hu))
        (fun u hu => hread u (List.mem_cons_of_mem m hu)) (m :: read) fuel (by omega)]
    simp

end

theorem readsBack_array {style : Style} {items : List Json} (hitems : ∀ v ∈ items, Spelled v)
    (hread : ∀ v ∈ items, ReadsBack style.deeper v) : ReadsBack style (.array items) := by
  intro fuel s hs hfuel
  cases items with
  | nil =>
    cases fuel with
    | zero => simp [render] at hfuel
    | succ fuel => rfl
  | cons v items =>
    have htext : render style (.array (v :: items)) ++ s = 91 :: (style.deeper.gap ++
        (render style.deeper v ++ (renderItems style.deeper items ++ (style.gap ++ 93 :: s)))) := by
      simp [render]
    have hlen : (render style (.array (v :: items))).length = style.deeper.gap.length +
        (render style.deeper v ++ renderItems style.deeper items).length + style.gap.length
          + 2 := by
      simp [render]
      omega
    rw [hlen] at hfuel
    obtain ⟨fuel, rfl⟩ : ∃ k, fuel = k + 1 := ⟨fuel - 1, by omega⟩
    have hv := (startsValue_render (hitems v List.mem_cons_self) style.deeper).append
      (renderItems style.deeper items ++ (style.gap ++ 93 :: s))
    have hitems := readItems?_render (blank_gap style) s hitems hread fuel [] (by omega)
    rw [htext, readValue?, skipBlanks_append (blank_gap style.deeper), hv.skipBlanks_eq]
    obtain ⟨o, t, ho, -, h93⟩ := hv
    rw [ho] at hitems ⊢
    split
    · next heq => cases heq; exact absurd rfl h93
    · exact hitems

@[simp] theorem colon_deeper (style : Style) : style.deeper.colon = style.colon := by
  cases style <;> rfl

theorem readsBack_object {style : Style} {members : List (Option String × Json)}
    (hname : ∀ m ∈ members, m.1.isSome = true) (hmembers : ∀ m ∈ members, Spelled m.2)
    (hread : ∀ m ∈ members, ReadsBack style.deeper m.2) : ReadsBack style (.object members) := by
  intro fuel s hs hfuel
  cases members with
  | nil =>
    cases fuel with
    | zero => simp [render] at hfuel
    | succ fuel => rfl
  | cons m members =>
    have htext : render style (.object (m :: members)) ++ s = 123 :: (style.deeper.gap ++
        (memberText style.deeper m ++
          (renderMembers style.deeper members ++ (style.gap ++ 125 :: s)))) := by
      simp [render, memberText]
    have hlen : (render style (.object (m :: members))).length = style.deeper.gap.length +
        (memberText style.deeper m ++ renderMembers style.deeper members).length
          + style.gap.length + 2 := by
      simp [render, memberText]
      omega
    rw [hlen] at hfuel
    obtain ⟨fuel, rfl⟩ : ∃ k, fuel = k + 1 := ⟨fuel - 1, by omega⟩
    have hm := (startsValue_memberText style.deeper m).append
      (renderMembers style.deeper members ++ (style.gap ++ 125 :: s))
    have hall := readMembers?_render (blank_gap style) s hname hmembers hread fuel [] (by omega)
    rw [htext, readValue?, skipBlanks_append (blank_gap style.deeper), hm.skipBlanks_eq]
    have h125 : ∀ t, memberText style.deeper m ++
        (renderMembers style.deeper members ++ (style.gap ++ 125 :: s)) ≠ 125 :: t := by
      obtain ⟨name, v⟩ := m
      intro t heq
      cases name <;> exact absurd (List.cons.inj heq).1 (by decide)
    split
    · next heq => exact absurd heq (h125 _)
    · exact hall

/-- **Values read back.** The text of a value is read up to its end. -/
theorem readsBack_of_spelled {v : Json} (hv : Spelled v) (style : Style) : ReadsBack style v := by
  induction hv generalizing style with
  | null =>
    intro fuel s hs hfuel
    cases fuel with
    | zero => simp [render] at hfuel
    | succ fuel => rfl
  | bool b =>
    intro fuel s hs hfuel
    cases fuel with
    | zero => cases b <;> simp [render] at hfuel
    | succ fuel => cases b <;> rfl
  | number n h => exact readsBack_number h style
  | string s => exact readsBack_string s style
  | array items h ih => exact readsBack_array h fun v hv => ih v hv style.deeper
  | object members hname h ih =>
    exact readsBack_object hname h fun m hm => ih m hm style.deeper

/-- **Texts read back.** The text of a value with blanks behind it is read as that value. -/
theorem read?_render {v : Json} (hv : Spelled v) (style : Style) {b : List UInt8}
    (hb : Blank b) : read? (render style v ++ b) = some v := by
  have hstop : NoNumeral b := by
    have := noNumeral_blank_append hb noNumeral_nil
    rwa [List.append_nil] at this
  have hread := readsBack_of_spelled hv style (2 * (render style v ++ b).length + 2) b hstop
    (by rw [List.length_append]; omega)
  unfold read?
  rw [((startsValue_render hv style).append b).skipBlanks_eq, hread]
  simp [skipBlanks_blank hb]

theorem read?_render_end {v : Json} (hv : Spelled v) (style : Style) :
    read? (render style v) = some v := by
  have hread := read?_render hv style (b := []) fun o ho => nomatch ho
  rwa [List.append_nil] at hread

theorem wellFormed_of_read?_octets {n : Numeral} {v : Json} (h : read? n.octets = some v) :
    n.WellFormed := by
  cases hoctets : n.octets with
  | nil =>
    rw [hoctets] at h
    cases h
  | cons o s =>
    have hmem : o ∈ n.octets := hoctets ▸ List.mem_cons_self
    unfold read? at h
    rw [hoctets, skipBlanks_cons (bounds_of_mem_octets hmem).1, readValue?_of_mem_octets hmem,
      ← hoctets] at h
    cases hread : readNumeral? n.octets with
    | none =>
      rw [hread] at h
      cases h
    | some read => exact wellFormed_of_readNumeral? hread

/-- The text of a numeral is that of a value exactly if the numeral is well-formed. -/
theorem read?_octets_iff {n : Numeral} {v : Json} :
    read? n.octets = some v ↔ n.WellFormed ∧ v = .number n := by
  have hrender (hn : n.WellFormed) : read? n.octets = some (.number n) :=
    read?_render_end (.number n hn) .compact
  constructor
  · intro h
    have hn := wellFormed_of_read?_octets h
    exact ⟨hn, Option.some.inj (h.symm.trans (hrender hn))⟩
  · rintro ⟨hn, rfl⟩
    exact hrender hn

end ImplicitTiling.Json
