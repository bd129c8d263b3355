import ImplicitTiling.Proofs.Availability.Splitting
import ImplicitTiling.Proofs.Bitset.Packing
import ImplicitTiling.Subtree.Decoding

/-!
# What an entry of a description stands for

`Resolves` says which bits an entry stands for, and with that which entries stand for bits at all.
`sourceBits_eq_ok_iff`: those are the bits that are read. The availabilities that are built from
them never fail (`sourceAvailability_cases`): an entry that does not resolve is a malformed subtree,
and one that does has the right number of bits.
-/

namespace ImplicitTiling.Subtree

open Availability

/-- View `index` of a description is `w` and shows at least `n` bits of the binary chunk: it refers
to the first buffer, and it ends within that buffer and within the chunk. -/
structure Shows (d : Description) (binary : ByteArray) (n index : Nat) (w : BufferView) :
    Prop where
  view : d.views[index]? = some w
  buffer_eq : w.buffer = 0
  buffer_le : ∃ buffer, d.buffers[0]? = some buffer ∧
    w.byteOffset + w.byteLength ≤ buffer.byteLength
  chunk_le : w.byteOffset + w.byteLength ≤ binary.size
  length_le : byteCount n ≤ w.byteLength

/-- Bit `k` of the bytes from `offset` on, low bit of a byte first. -/
def bitFrom (binary : ByteArray) (offset k : Nat) : Bool :=
  (Octets.byteAt binary (offset + k / 8)).toNat.testBit (k % 8)

/-- The entry stands for the bits `f`, of which there are at least `n`: those of the bitstream that
it names, or else the constant 0 or 1. -/
inductive Resolves (d : Description) (binary : ByteArray) (n : Nat) (source : BitSource) :
    (Nat → Bool) → Prop
  | bitstream {index : Nat} {w : BufferView} (h : source.bitstream = some index)
      (hw : Shows d binary n index w) : Resolves d binary n source (bitFrom binary w.byteOffset)
  | constant (v : Bool) (h : source.bitstream = none) (hc : source.constant = some v.toNat) :
      Resolves d binary n source fun _ => v

variable {d : Description} {binary : ByteArray} {n : Nat}

theorem Resolves.unique {m : Nat} {source : BitSource} {f g : Nat → Bool}
    (hf : Resolves d binary n source f) (hg : Resolves d binary m source g) : f = g := by
  cases hf with
  | bitstream h hw =>
    cases hg with
    | bitstream h' hw' =>
      cases h.symm.trans h'
      cases hw.view.symm.trans hw'.view
      rfl
    | constant v h' hc' => cases h.symm.trans h'
  | constant v h hc =>
    cases hg with
    | bitstream h' hw' => cases h.symm.trans h'
    | constant v' h' hc' =>
      have : v.toNat = v'.toNat := Option.some.inj (hc.symm.trans hc')
      cases v <;> cases v' <;> first | rfl | cases this

/-! ## Views -/

theorem viewedBits_of_view {index : Nat} {w : BufferView} {buffer : PackedBuffer}
    (hw : d.views[index]? = some w) (hbuffer : d.buffers[0]? = some buffer) (h0 : w.buffer = 0) :
    viewedBits d binary index n =
      (if lengthLimit ≤ w.byteOffset + w.byteLength then .error .viewOverflow
      else if buffer.byteLength < w.byteOffset + w.byteLength ∨
          binary.size < w.byteOffset + w.byteLength then
        .error (.viewPastBuffer index (w.byteOffset + w.byteLength)
          (min binary.size buffer.byteLength))
      else match Bitset.ofBytes?
          (binary.extract w.byteOffset (w.byteOffset + w.byteLength)) n with
        | none => .error (.viewTooShort index w.byteLength n)
        | some bits => .ok bits) := by
  unfold viewedBits
  rw [← h0] at hbuffer
  simp only [hw, hbuffer]
  refine (if_neg (not_not_intro h0)).trans ?_
  by_cases h1 : lengthLimit ≤ w.byteOffset + w.byteLength
  · exact (if_pos h1).trans (if_pos h1).symm
  · refine (if_neg h1).trans (Eq.trans ?_ (if_neg h1).symm)
    by_cases h2 : buffer.byteLength < w.byteOffset + w.byteLength ∨
        binary.size < w.byteOffset + w.byteLength
    · exact (if_pos h2).trans (if_pos h2).symm
    · refine (if_neg h2).trans (Eq.trans ?_ (if_neg h2).symm)
      cases Bitset.ofBytes? (binary.extract w.byteOffset (w.byteOffset + w.byteLength)) n with
      | none => rfl
      | some bits => rfl

/-- A view whose bits are asked for is there, and refers to the first buffer, which is there. -/
theorem exists_of_viewedBits_eq_ok {index : Nat} {bits : Bitset}
    (h : viewedBits d binary index n = .ok bits) :
    ∃ w buffer, d.views[index]? = some w ∧ d.buffers[0]? = some buffer ∧ w.buffer = 0 := by
  unfold viewedBits at h
  cases hw : d.views[index]? with
  | none =>
    rw [hw] at h
    cases h
  | some w =>
    rw [hw] at h
    dsimp only at h
    cases hbuffer : d.buffers[w.buffer]? with
    | none =>
      rw [hbuffer] at h
      cases h
    | some buffer =>
      rw [hbuffer] at h
      dsimp only at h
      split at h
      · cases h
      · next h0 =>
        have h0 := Decidable.not_not.1 h0
        rw [h0] at hbuffer
        exact ⟨w, buffer, rfl, hbuffer, h0⟩

/-- The bits of a view are read exactly where the view shows enough of them. The lengths of buffers
are numbers of 64 bits, so a view that ends within its buffer does not overflow. -/
theorem viewedBits_eq_ok_iff (hd : ∀ buffer ∈ d.buffers, buffer.byteLength < lengthLimit)
    {index : Nat} {bits : Bitset} :
    viewedBits d binary index n = .ok bits ↔ ∃ w, Shows d binary n index w ∧ bits.size = n ∧
      ∀ k < n, bits.get k = bitFrom binary w.byteOffset k := by
  -- Inside the view a byte of the piece is a byte of the chunk.
  have hbyte (w : BufferView) (hchunk : w.byteOffset + w.byteLength ≤ binary.size)
      (hlen : byteCount n ≤ w.byteLength) (k : Nat) (hk : k < n) :
      (Octets.byteAt (binary.extract w.byteOffset (w.byteOffset + w.byteLength))
        (k / 8)).toNat.testBit (k % 8) = bitFrom binary w.byteOffset k := by
    unfold byteCount at hlen
    rw [Octets.byteAt_extract binary hchunk (by omega), bitFrom]
  have hpiece (w : BufferView) (hchunk : w.byteOffset + w.byteLength ≤ binary.size) :
      (binary.extract w.byteOffset (w.byteOffset + w.byteLength)).size = w.byteLength := by
    rw [ByteArray.size_extract]
    omega
  constructor
  · intro h
    obtain ⟨w, buffer, hw, hbuffer, h0⟩ := exists_of_viewedBits_eq_ok h
    rw [viewedBits_of_view hw hbuffer h0] at h
    split at h
    · cases h
    · split at h
      · cases h
      · next hstop =>
        obtain ⟨hbufferLe, hchunk⟩ := not_or.1 hstop
        have hchunk := Nat.not_lt.1 hchunk
        split at h
        · cases h
        · next hbits =>
          cases h
          obtain ⟨hlen, hsize, hget⟩ := Bitset.ofBytes?_eq_some_iff.1 hbits
          rw [hpiece w hchunk] at hlen
          refine ⟨w, ⟨hw, h0, ⟨buffer, hbuffer, Nat.not_lt.1 hbufferLe⟩, hchunk, hlen⟩, hsize, ?_⟩
          intro k hk
          rw [hget k hk, hbyte w hchunk hlen k hk]
  · rintro ⟨w, ⟨hw, h0, ⟨buffer, hbuffer, hbufferLe⟩, hchunk, hlen⟩, hsize, hget⟩
    have hlimit := hd buffer (List.mem_of_getElem? hbuffer)
    have hbits : Bitset.ofBytes? (binary.extract w.byteOffset (w.byteOffset + w.byteLength)) n =
        some bits := by
      apply Bitset.ofBytes?_eq_some_iff.2
      refine ⟨by rw [hpiece w hchunk]; exact hlen, hsize, ?_⟩
      intro k hk
      rw [hget k hk, hbyte w hchunk hlen k hk]
    rw [viewedBits_of_view hw hbuffer h0, if_neg (by omega), if_neg (by omega), hbits]

/-! ## Entries -/

section

variable {source : BitSource} {bits : Bitset}

theorem ok_eq_ok_iff_constant (v : Bool) (hb : source.bitstream = none)
    (hc : source.constant = some v.toNat) {b : Bitset} (hsize : b.size = n)
    (hget : ∀ k < n, b.get k = v) : (Except.ok b : Except FormatError Bitset) = .ok bits ↔
      ∃ f, Resolves d binary n source f ∧ bits.size = n ∧ ∀ k < n, bits.get k = f k := by
  constructor
  · intro h
    cases h
    exact ⟨_, .constant v hb hc, hsize, hget⟩
  · rintro ⟨f, hf, hsize', hget'⟩
    cases hf.unique (Resolves.constant (n := n) v hb hc)
    congr 1
    apply Bitset.ext_get (hsize.trans hsize'.symm)
    intro k
    by_cases hk : k < n
    · rw [hget k hk, hget' k hk]
    · rw [Bitset.get_of_le (by omega), Bitset.get_of_le (by omega)]

theorem not_resolves (hb : source.bitstream = none)
    (hc : ∀ v : Bool, source.constant ≠ some v.toNat) {f : Nat → Bool} :
    ¬ Resolves d binary n source f := by
  intro hf
  cases hf with
  | bitstream h hw => cases hb.symm.trans h
  | constant v h hc' => exact hc v hc'

theorem error_eq_ok_iff (e : FormatError) (h : ∀ f, ¬ Resolves d binary n source f) :
    (Except.error e : Except FormatError Bitset) = .ok bits ↔
      ∃ f, Resolves d binary n source f ∧ bits.size = n ∧ ∀ k < n, bits.get k = f k := by
  constructor
  · intro he
    cases he
  · rintro ⟨f, hf, -⟩
    exact absurd hf (h f)

/-- The bits of an entry are read exactly where it resolves, and they are the bits it stands for. -/
theorem sourceBits_eq_ok_iff (hd : ∀ buffer ∈ d.buffers, buffer.byteLength < lengthLimit) :
    sourceBits d binary source n = .ok bits ↔ ∃ f, Resolves d binary n source f ∧ bits.size = n ∧
      ∀ k < n, bits.get k = f k := by
  unfold sourceBits
  cases hb : source.bitstream with
  | some index =>
    show viewedBits d binary index n = .ok bits ↔ _
    rw [viewedBits_eq_ok_iff hd]
    constructor
    · rintro ⟨w, hw, hsize, hget⟩
      exact ⟨_, .bitstream hb hw, hsize, hget⟩
    · rintro ⟨f, hf, hsize, hget⟩
      cases hf with
      | bitstream h hw =>
        cases hb.symm.trans h
        exact ⟨_, hw, hsize, hget⟩
      | constant v h hc => cases hb.symm.trans h
  | none =>
    split
    · next h => cases h
    · next h1 h2 =>
      exact ok_eq_ok_iff_constant false hb h2 rfl fun k _ => Bitset.get_empty n k
    · next h1 h2 =>
      exact ok_eq_ok_iff_constant true hb h2 rfl fun k hk => by
        rw [Bitset.get_full, decide_eq_true hk]
    · next h0 h1 _ hc =>
      refine error_eq_ok_iff _ fun f => not_resolves hb ?_
      intro v hv
      cases v with
      | false => exact h0 (Option.some.inj (hc.symm.trans hv))
      | true => exact h1 (Option.some.inj (hc.symm.trans hv))
    · next hc =>
      refine error_eq_ok_iff _ fun f => not_resolves hb ?_
      intro v hv
      cases hc.symm.trans hv

end

/-! ## Availabilities -/

/-- The number of bits that `levels` levels have. -/
def bitCount (levels : Nat) : Topology → Nat
  | .pyramid => pyramidLength levels
  | .children => 4 ^ levels

/-- The availability has the bits that an entry stands for. -/
structure ReadsAs (d : Description) (binary : ByteArray) (source : BitSource) (levels : Nat)
    (t : Topology) (a : Availability) (f : Nat → Bool) : Prop where
  resolves : Resolves d binary (bitCount levels t) source f
  topology_eq : a.topology = t
  length_eq : a.length = bitCount levels t
  get_eq : ∀ k < bitCount levels t, a.toBitset.get k = f k

theorem hasLength_bitCount {levels : Nat} (h1 : 1 ≤ levels) (t : Topology) :
    HasLength (bitCount levels t) t := by
  cases t with
  | pyramid => exact ⟨levels, h1, rfl⟩
  | children => exact ⟨levels, rfl⟩

theorem sourceAvailability_cases (hd : ∀ buffer ∈ d.buffers, buffer.byteLength < lengthLimit)
    (binary : ByteArray) (source : BitSource) {levels : Nat} (h1 : 1 ≤ levels) (t : Topology) :
    (∃ cause, sourceAvailability d binary source (bitCount levels t) t = .error (.format cause) ∧
      ∀ f, ¬ Resolves d binary (bitCount levels t) source f) ∨
    ∃ a f, sourceAvailability d binary source (bitCount levels t) t = .ok a ∧
      ReadsAs d binary source levels t a f := by
  unfold sourceAvailability
  cases hbits : sourceBits d binary source (bitCount levels t) with
  | error cause =>
    refine .inl ⟨cause, rfl, ?_⟩
    intro f hf
    obtain ⟨bits, hsize, hget⟩ := Bitset.exists_get (bitCount levels t) f
    have hok := (sourceBits_eq_ok_iff hd).2 ⟨f, hf, hsize, hget⟩
    rw [hbits] at hok
    cases hok
  | ok bits =>
    obtain ⟨f, hf, hsize, hget⟩ := (sourceBits_eq_ok_iff hd).1 hbits
    obtain ⟨a, ha, hsplit⟩ := exists_ofBitset_eq_ok hsize (hasLength_bitCount h1 t)
    refine .inr ⟨a, f, ?_, hf, hsplit.topology_eq, hsplit.length_eq.trans hsize, ?_⟩
    · show (ofBitset bits (bitCount levels t) t).mapError Error.precondition = .ok a
      rw [ha]
      rfl
    · rwa [hsplit.toBitset_eq]

end ImplicitTiling.Subtree
