import ImplicitTiling.Json.Printer
import ImplicitTiling.Proofs.Subtree.Description

/-!
# How long a description gets

Bounds on the text of a value from bounds on its parts. A number of 64 bits takes at most twenty
digits, so a description has a bounded text, whatever the lengths that it states
(`Description.length_compact_le`).
-/

namespace ImplicitTiling

theorem Digit.length_spellOnto_le (fuel : Nat) {n k : Nat} (rest : List Digit) (hk : 1 ≤ k)
    (hn : n < 10 ^ k) : (spellOnto fuel n rest).length ≤ k + rest.length := by
  induction fuel generalizing n k rest with
  | zero => exact Nat.le_add_left _ _
  | succ fuel ih =>
    unfold spellOnto
    dsimp only
    split
    · rw [List.length_cons]
      omega
    · next h10 =>
      obtain ⟨k, rfl⟩ := Nat.exists_eq_add_of_le' hk
      rw [Nat.pow_succ] at hn
      -- A number of one digit was spelled above, so a digit is left for the quotient.
      have hk' : 1 ≤ k := by
        by_contra h0
        obtain rfl : k = 0 := by omega
        omega
      have h := ih (⟨n % 10, Nat.mod_lt n (by omega)⟩ :: rest) hk'
        (Nat.div_lt_of_lt_mul (Nat.mul_comm _ _ ▸ hn))
      rw [List.length_cons] at h
      omega

namespace Json

/-- A number of 64 bits has at most twenty digits. -/
theorem length_compact_ofNat_le {n : Nat} (hn : n < lengthLimit) :
    (compact (ofNat n)).length ≤ 20 := by
  have h := Digit.length_spellOnto_le (n + 1) [] (show 1 ≤ 20 by decide)
    (Nat.lt_trans hn (by decide : lengthLimit < 10 ^ 20))
  show ((Digit.spell n).map Digit.octet ++ [] ++ []).length ≤ 20
  rw [List.append_nil, List.append_nil, List.length_map]
  exact h

theorem length_renderItems_le {items : List Json} {n : Nat}
    (h : ∀ v ∈ items, (compact v).length ≤ n) :
    (renderItems .compact items).length ≤ items.length * (n + 1) := by
  induction items with
  | nil => exact Nat.zero_le _
  | cons v items ih =>
    have hv := h v List.mem_cons_self
    have hrest := ih fun v' hv' => h v' (List.mem_cons_of_mem v hv')
    have hlen : (renderItems .compact (v :: items)).length =
        1 + (compact v).length + (renderItems .compact items).length := by
      rw [renderItems, Style.gap, List.length_append, List.length_append]
      rfl
    rw [hlen, List.length_cons, Nat.succ_mul]
    omega

theorem length_compact_array_le {items : List Json} {n : Nat}
    (h : ∀ v ∈ items, (compact v).length ≤ n) :
    (compact (.array items)).length ≤ items.length * (n + 1) + 2 := by
  cases items with
  | nil => exact Nat.le_add_left _ _
  | cons v items =>
    have hv := h v List.mem_cons_self
    have hrest := length_renderItems_le fun v' hv' => h v' (List.mem_cons_of_mem v hv')
    have hlen : (compact (.array (v :: items))).length =
        1 + (compact v).length + (renderItems .compact items).length + 1 := by
      show (91 :: [] ++ compact v ++ renderItems .compact items ++ [] ++ [93]).length = _
      simp only [List.length_append, List.length_cons, List.length_nil]
    rw [hlen, List.length_cons, Nat.succ_mul]
    omega

theorem length_compact_array_map_le {α : Type} (f : α → Json) {as : List α} {n : Nat}
    (h : ∀ a ∈ as, (compact (f a)).length ≤ n) :
    (compact (.array (as.map f))).length ≤ as.length * (n + 1) + 2 := by
  rw [← List.length_map f]
  apply length_compact_array_le
  intro v hv
  obtain ⟨a, ha, rfl⟩ := List.mem_map.1 hv
  exact h a ha

theorem length_renderMembers_le {members : List (String × Json)} {n : Nat}
    (h : ∀ m ∈ members, (quoted (some m.1)).length + (compact m.2).length ≤ n) :
    (renderMembers .compact (members.map fun (name, v) => (some name, v))).length ≤
      members.length * (n + 2) := by
  induction members with
  | nil => exact Nat.zero_le _
  | cons m members ih =>
    have hm := h m List.mem_cons_self
    have hrest := ih fun m' hm' => h m' (List.mem_cons_of_mem m hm')
    have hlen : (renderMembers .compact ((m :: members).map fun (name, v) => (some name, v))).length =
        1 + (quoted (some m.1)).length + 1 + (compact m.2).length +
          (renderMembers .compact (members.map fun (name, v) => (some name, v))).length := by
      show (44 :: [] ++ quoted (some m.1) ++ [58] ++ compact m.2 ++ _).length = _
      simp only [List.length_append, List.length_cons, List.length_nil]
    rw [hlen, List.length_cons, Nat.succ_mul]
    omega

theorem length_compact_record_le {members : List (String × Json)} {n : Nat}
    (h : ∀ m ∈ members, (quoted (some m.1)).length + (compact m.2).length ≤ n) :
    (compact (record members)).length ≤ members.length * (n + 2) + 2 := by
  cases members with
  | nil => exact Nat.le_add_left _ _
  | cons m members =>
    have hm := h m List.mem_cons_self
    have hrest := length_renderMembers_le fun m' hm' => h m' (List.mem_cons_of_mem m hm')
    have hlen : (compact (record (m :: members))).length =
        1 + (quoted (some m.1)).length + 1 + (compact m.2).length +
          (renderMembers .compact (members.map fun (name, v) => (some name, v))).length + 1 := by
      show (((123 : UInt8) :: [] ++ quoted (some m.1)) ++ [(58 : UInt8)] ++ compact m.2 ++
        renderMembers .compact (members.map fun (name, v) => (some name, v)) ++ [] ++
          [(125 : UInt8)]).length = _
      simp only [List.length_append, List.length_cons, List.length_nil]
    rw [hlen, List.length_cons, Nat.succ_mul]
    omega

end Json

open Json

/-! ## Descriptions -/

theorem length_presentMember_le {name : String} {n : Option Nat} (hn : ∀ k ∈ n, k < lengthLimit)
    {m : String × Json} (hm : m ∈ presentMember name n) :
    (quoted (some m.1)).length + (compact m.2).length ≤ (quoted (some name)).length + 20 := by
  cases n with
  | none => cases hm
  | some n =>
    obtain rfl := List.mem_singleton.1 hm
    exact Nat.add_le_add_left (length_compact_ofNat_le (hn n rfl)) _

theorem length_presentMember_list_le (name : String) (n : Option Nat) :
    (presentMember name n).length ≤ 1 := by
  cases n with
  | none => exact Nat.zero_le 1
  | some n => exact Nat.le_refl 1

theorem BitSource.length_compact_le {s : BitSource} (h : BitSource.Below lengthLimit s) :
    (compact s.toJson).length ≤ 116 := by
  have hmember : ∀ m ∈ presentMember "bitstream" s.bitstream ++
      presentMember "availableCount" s.availableCount ++ presentMember "constant" s.constant,
      (quoted (some m.1)).length + (compact m.2).length ≤ 36 := by
    intro m hm
    rcases List.mem_append.1 hm with hm | hm
    · rcases List.mem_append.1 hm with hm | hm
      · exact Nat.le_trans (length_presentMember_le h.bitstream_lt hm) (by decide)
      · exact Nat.le_trans (length_presentMember_le h.availableCount_lt hm) (by decide)
    · have hconstant : ∀ n ∈ s.constant, n < lengthLimit := fun n hn =>
        Nat.lt_trans (h.constant_lt n hn) (by decide)
      exact Nat.le_trans (length_presentMember_le hconstant hm) (by decide)
  have h1 := length_presentMember_list_le "bitstream" s.bitstream
  have h2 := length_presentMember_list_le "availableCount" s.availableCount
  have h3 := length_presentMember_list_le "constant" s.constant
  have hlen := length_compact_record_le hmember
  rw [List.length_append, List.length_append] at hlen
  unfold toJson
  omega

theorem BufferView.length_compact_le {w : BufferView} (h : BufferView.Below lengthLimit w) :
    (compact w.toJson).length ≤ 104 := by
  have hmember : ∀ m ∈ [("buffer", Json.ofNat w.buffer), ("byteOffset", Json.ofNat w.byteOffset),
      ("byteLength", Json.ofNat w.byteLength)],
      (quoted (some m.1)).length + (compact m.2).length ≤ 32 := by
    have hn (name : String) {n : Nat} (hname : (quoted (some name)).length ≤ 12)
        (hn : n < lengthLimit) :
        (quoted (some name)).length + (compact (Json.ofNat n)).length ≤ 32 :=
      Nat.add_le_add hname (length_compact_ofNat_le hn)
    intro m hm
    simp only [List.mem_cons, List.not_mem_nil, or_false] at hm
    rcases hm with rfl | rfl | rfl
    · exact hn "buffer" (by decide) h.buffer_lt
    · exact hn "byteOffset" (by decide) h.byteOffset_lt
    · exact hn "byteLength" (by decide) h.byteLength_lt
  exact length_compact_record_le hmember

theorem PackedBuffer.length_compact_le {n : Nat} (h : n < lengthLimit) :
    (compact (PackedBuffer.toJson { byteLength := n })).length ≤ 36 := by
  have hmember : ∀ m ∈ [("byteLength", Json.ofNat n)],
      (quoted (some m.1)).length + (compact m.2).length ≤ 32 := by
    intro m hm
    obtain rfl := List.mem_singleton.1 hm
    exact Nat.add_le_add (by decide : (quoted (some "byteLength")).length ≤ 12)
      (length_compact_ofNat_le h)
  exact length_compact_record_le hmember

/-- The text of a description of one buffer and at most three views. -/
theorem Description.length_compact_le {d : Description} (h : Description.Below lengthLimit d)
    {n : Nat} (hbuffers : d.buffers = [{ byteLength := n }]) {source : BitSource}
    (hcontent : d.content = [source]) (hviews : d.views.length ≤ 3) :
    (compact d.toJson).length ≤ 1727 := by
  have hbuffer : (compact (.array (d.buffers.map PackedBuffer.toJson))).length ≤ 39 := by
    have hone : ∀ b ∈ d.buffers, (compact b.toJson).length ≤ 36 := by
      intro b hb
      have hbelow := h.buffers b hb
      rw [hbuffers] at hb
      obtain rfl := List.mem_singleton.1 hb
      exact PackedBuffer.length_compact_le hbelow
    have hlen := length_compact_array_map_le PackedBuffer.toJson hone
    rw [hbuffers] at hlen ⊢
    exact hlen
  have hview : (compact (.array (d.views.map BufferView.toJson))).length ≤ 317 := by
    have hlen := length_compact_array_map_le BufferView.toJson fun w hw =>
      BufferView.length_compact_le (h.views w hw)
    omega
  have hsource : (compact (.array (d.content.map BitSource.toJson))).length ≤ 119 := by
    have hlen := length_compact_array_map_le BitSource.toJson fun s hs =>
      BitSource.length_compact_le (h.content s hs)
    rw [hcontent] at hlen ⊢
    exact hlen
  have htiles := BitSource.length_compact_le h.tiles
  have hchildren := BitSource.length_compact_le h.children
  have hmember : ∀ m ∈ [("buffers", Json.array (d.buffers.map PackedBuffer.toJson)),
      ("bufferViews", .array (d.views.map BufferView.toJson)),
      ("tileAvailability", d.tiles.toJson),
      ("contentAvailability", .array (d.content.map BitSource.toJson)),
      ("childSubtreeAvailability", d.children.toJson)],
      (quoted (some m.1)).length + (compact m.2).length ≤ 343 := by
    have hm (name : String) {v : Json} (hname : (quoted (some name)).length ≤ 26)
        (hv : (compact v).length ≤ 317) :
        (quoted (some name)).length + (compact v).length ≤ 343 :=
      Nat.add_le_add hname hv
    intro m hmem
    simp only [List.mem_cons, List.not_mem_nil, or_false] at hmem
    rcases hmem with rfl | rfl | rfl | rfl | rfl
    · exact hm "buffers" (by decide) (Nat.le_trans hbuffer (by decide))
    · exact hm "bufferViews" (by decide) hview
    · exact hm "tileAvailability" (by decide) (Nat.le_trans htiles (by decide))
    · exact hm "contentAvailability" (by decide) (Nat.le_trans hsource (by decide))
    · exact hm "childSubtreeAvailability" (by decide) (Nat.le_trans hchildren (by decide))
  have hlen := length_compact_record_le hmember
  simp only [List.length_cons, List.length_nil] at hlen
  exact hlen

end ImplicitTiling
