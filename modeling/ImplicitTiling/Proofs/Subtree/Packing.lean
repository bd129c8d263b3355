import ImplicitTiling.Proofs.Subtree.Description
import ImplicitTiling.Proofs.Subtree.Resolution
import ImplicitTiling.Subtree.Encoding

/-!
# Packing availabilities one behind the other

`Packing.add_cases` says what packing one more availability does. What is packed already stays where
it is (`Grows`), so an entry that stands for an availability keeps standing for it
(`Carries.of_grows`) until all are packed and the buffer is padded (`Carries.exists_resolves`).
-/

namespace ImplicitTiling

open Availability

namespace Packing

/-- Packing an availability writes a constant and leaves the bitstreams alone, or puts its bits
behind them. -/
theorem add_cases (p : Packing) (a : Availability) :
    (p.add a = (p, { constant := some 0 }) ∧ ∀ k, a.toBitset.get k = false) ∨
    (p.add a = (p, { constant := some 1 }) ∧ ∀ k < a.length, a.toBitset.get k = true) ∨
    p.add a = ({ data := p.data ++ a.toBitset.toBytes
                 views := p.views ++ [⟨0, p.data.size, byteCount a.length⟩] },
      { bitstream := some p.views.length, availableCount := some a.toBitset.count }) := by
  unfold add shape
  by_cases hempty : a.isEmpty = true
  · rw [if_pos hempty]
    exact .inl ⟨rfl, (isEmpty_iff a).1 hempty⟩
  · rw [if_neg hempty]
    by_cases hfull : a.isFull = true
    · rw [if_pos hfull]
      exact .inr (.inl ⟨rfl, (isFull_iff a).1 hfull⟩)
    · rw [if_neg hfull, ← size_toBitset, ← Bitset.size_toBytes]
      exact .inr (.inr rfl)

/-! ## What is packed stays -/

/-- The packing `q` continues the packing `p`. -/
def Grows (p q : Packing) : Prop :=
  (∃ data, q.data = p.data ++ data) ∧ ∃ views, q.views = p.views ++ views

theorem Grows.refl (p : Packing) : Grows p p :=
  ⟨⟨.empty, ByteArray.append_empty.symm⟩, ⟨[], (List.append_nil _).symm⟩⟩

theorem Grows.trans {p q r : Packing} (hpq : Grows p q) (hqr : Grows q r) : Grows p r := by
  obtain ⟨⟨data, hdata⟩, ⟨views, hviews⟩⟩ := hpq
  obtain ⟨⟨data', hdata'⟩, ⟨views', hviews'⟩⟩ := hqr
  refine ⟨⟨data ++ data', ?_⟩, ⟨views ++ views', ?_⟩⟩
  · rw [hdata', hdata, ByteArray.append_assoc]
  · rw [hviews', hviews, List.append_assoc]

theorem grows_add (p : Packing) (a : Availability) : Grows p (p.add a).1 := by
  rcases p.add_cases a with ⟨h, -⟩ | ⟨h, -⟩ | h
  · rw [h]
    exact Grows.refl p
  · rw [h]
    exact Grows.refl p
  · rw [h]
    exact ⟨⟨_, rfl⟩, ⟨_, rfl⟩⟩

/-- The source stands for the bits of an availability: a constant that they all equal, or a view of
their bytes. -/
inductive Carries (p : Packing) (source : BitSource) (a : Availability) : Prop
  | constant (v : Bool) (h : source.bitstream = none) (hc : source.constant = some v.toNat)
      (hv : ∀ k < a.length, a.toBitset.get k = v)
  | view (index offset : Nat) (h : source.bitstream = some index)
      (hw : p.views[index]? = some ⟨0, offset, byteCount a.length⟩)
      (hle : offset + byteCount a.length ≤ p.data.size)
      (hbytes : ∀ k < byteCount a.length,
        Octets.byteAt p.data (offset + k) = Octets.byteAt a.toBitset.toBytes k)

theorem Carries.of_grows {p q : Packing} {source : BitSource} {a : Availability}
    (h : p.Carries source a) (hpq : Grows p q) : q.Carries source a := by
  cases h with
  | constant v h hc hv => exact .constant v h hc hv
  | view index offset h hw hle hbytes =>
    obtain ⟨⟨data, hdata⟩, ⟨views, hviews⟩⟩ := hpq
    have hsize : q.data.size = p.data.size + data.size := by rw [hdata, ByteArray.size_append]
    refine .view index offset h ?_ (by omega) ?_
    · rw [hviews, List.getElem?_append_left (List.getElem?_eq_some_iff.1 hw).1]
      exact hw
    · intro k hk
      rw [hdata, Octets.byteAt_append_left data (by omega), hbytes k hk]

theorem carries_add (p : Packing) (a : Availability) : (p.add a).1.Carries (p.add a).2 a := by
  rcases p.add_cases a with ⟨h, hv⟩ | ⟨h, hv⟩ | h
  · rw [h]
    exact .constant false rfl rfl fun k _ => hv k
  · rw [h]
    exact .constant true rfl rfl hv
  · rw [h]
    refine .view p.views.length p.data.size rfl ?_ ?_ ?_
    · simp
    · simp [ByteArray.size_append]
    · intro k hk
      exact Octets.byteAt_append_right p.data a.toBitset.toBytes k

/-! ## What is packed is read back -/

/-- Where the buffer is the packed bytes and perhaps more, a source that stands for an availability
resolves to its bits, wherever no more are wanted than its bytes hold. -/
theorem Carries.exists_resolves {p : Packing} {source : BitSource} {a : Availability}
    (h : p.Carries source a) {d : Description} (hviews : d.views = p.views) {buffer : PackedBuffer}
    (hbuffer : d.buffers[0]? = some buffer) (hlen : p.data.size ≤ buffer.byteLength)
    (padding : ByteArray) {n : Nat} (hn : byteCount n ≤ byteCount a.length) :
    ∃ f, Subtree.Resolves d (p.data ++ padding) n source f ∧
      ∀ k < a.length, a.toBitset.get k = f k := by
  cases h with
  | constant v h hc hv => exact ⟨_, .constant v h hc, hv⟩
  | view index offset h hw hle hbytes =>
    refine ⟨_, .bitstream h ⟨hviews ▸ hw, rfl, ⟨buffer, hbuffer, ?_⟩, ?_, hn⟩, ?_⟩
    · exact Nat.le_trans hle hlen
    · rw [ByteArray.size_append]
      exact Nat.le_trans hle (Nat.le_add_right _ _)
    · intro k hk
      have hk8 : k / 8 < byteCount a.length := by
        unfold byteCount
        omega
      have hpos : 8 * (k / 8) + k % 8 = k := by omega
      have hin : offset + k / 8 < p.data.size := by omega
      show _ = (Octets.byteAt (p.data ++ padding) (offset + k / 8)).toNat.testBit (k % 8)
      rw [Octets.byteAt_append_left padding hin, hbytes _ hk8,
        Bitset.testBit_toBytes _ _ (Nat.mod_lt k (by decide)), hpos]

/-! ## How much is packed -/

/-- There are at most `m` views, all of the first buffer and within the bytes so far, of which there
are at most `n`. -/
structure Within (p : Packing) (m n : Nat) : Prop where
  views_le : p.views.length ≤ m
  data_le : p.data.size ≤ n
  view : ∀ w ∈ p.views, w.buffer = 0 ∧ w.byteOffset + w.byteLength ≤ p.data.size

theorem within_nil : Within {} 0 0 := by
  refine ⟨Nat.le_refl 0, Nat.le_refl 0, ?_⟩
  intro w hw
  cases hw

variable {p : Packing} {a : Availability} {m n : Nat}

theorem Within.add {k : Nat} (h : p.Within m n) (ha : byteCount a.length ≤ k) :
    (p.add a).1.Within (m + 1) (n + k) := by
  have hviews := h.views_le
  have hdata := h.data_le
  have hkeep : p.Within (m + 1) (n + k) := ⟨by omega, by omega, h.view⟩
  rcases p.add_cases a with ⟨hadd, -⟩ | ⟨hadd, -⟩ | hadd
  · rw [hadd]
    exact hkeep
  · rw [hadd]
    exact hkeep
  · have hsize : (p.data ++ a.toBitset.toBytes).size = p.data.size + byteCount a.length := by
      rw [ByteArray.size_append, Bitset.size_toBytes, size_toBitset]
    rw [hadd]
    refine ⟨?_, ?_, ?_⟩
    · show (p.views ++ [_]).length ≤ m + 1
      rw [List.length_append, List.length_singleton]
      omega
    · show (p.data ++ a.toBitset.toBytes).size ≤ n + k
      omega
    · intro w hw
      show w.buffer = 0 ∧ w.byteOffset + w.byteLength ≤ (p.data ++ a.toBitset.toBytes).size
      rw [hsize]
      rcases List.mem_append.1 hw with hw | hw
      · obtain ⟨h0, hle⟩ := h.view w hw
        exact ⟨h0, by omega⟩
      · obtain rfl := List.mem_singleton.1 hw
        exact ⟨rfl, Nat.le_refl _⟩

theorem Within.views_below (h : p.Within m n) {bound : Nat} (hn : n < bound) :
    ∀ w ∈ p.views, BufferView.Below bound w := by
  intro w hw
  have hdata := h.data_le
  obtain ⟨h0, hle⟩ := h.view w hw
  exact ⟨by omega, by omega, by omega⟩

theorem Within.source_below (h : p.Within m n) {bound : Nat} (hm : m < bound)
    (ha : a.length < bound) : BitSource.Below bound (p.add a).2 := by
  have hviews := h.views_le
  have hcount : a.toBitset.count ≤ a.length := by
    rw [← size_toBitset, Bitset.count_eq_countP]
    exact Nat.le_trans List.countP_le_length (Nat.le_of_eq List.length_range)
  rcases p.add_cases a with ⟨hadd, -⟩ | ⟨hadd, -⟩ | hadd
  · rw [hadd]
    exact ⟨by simp, by simp, by simp⟩
  · rw [hadd]
    exact ⟨by simp, by simp, by simp⟩
  · rw [hadd]
    refine ⟨?_, ?_, by simp⟩
    · rintro k ⟨⟩
      omega
    · rintro k ⟨⟩
      omega

end Packing

end ImplicitTiling
