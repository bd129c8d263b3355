import ImplicitTiling.Compression.Blob
import ImplicitTiling.Proofs.Morton
import ImplicitTiling.Proofs.Octets

/-!
# Compressed blobs are read back

A sequence carries bytes on from one position to another if its literals are the bytes that follow
and its match repeats bytes that went out before (`Sequence.Carries`). Reading such sequences gives
the bytes back (`readSequences?_of_spells`), and all that is found in a byte string are such
(`isCut_findSequences`). Together: `Block.decompress?_compress`, and with the size in front
`Blob.decompress_compress`.
-/

namespace ImplicitTiling

namespace Block

/-! ## Lengths -/

theorem readLength?_go_replicate (k sum : Nat) (s : List UInt8) :
    readLength?.go sum (List.replicate k 255 ++ s) = readLength?.go (sum + 255 * k) s := by
  induction k generalizing sum with
  | zero => rfl
  | succ k ih =>
    rw [List.replicate_succ, List.cons_append, readLength?.go, if_pos (beq_self_eq_true _), ih]
    congr 1
    omega

theorem readLength?_lengthOctets (n : Nat) (s : List UInt8) :
    readLength? (tokenBits n) (lengthOctets n ++ s) = some (n, s) := by
  unfold readLength? tokenBits lengthOctets
  by_cases h : n < 15
  · rw [if_pos (by omega), if_pos h, Nat.min_eq_left (by omega)]
    rfl
  · have hlast : ((n - 15) % 255).toUInt8.toNat = (n - 15) % 255 :=
      Nat.mod_eq_of_lt (by omega)
    have hne : (((n - 15) % 255).toUInt8 == 255) = false := by
      rw [beq_eq_false_iff_ne]
      intro heq
      have h255 : (n - 15) % 255 = 255 := hlast.symm.trans (congrArg UInt8.toNat heq)
      omega
    rw [if_neg (by omega), if_neg h, List.append_assoc, readLength?_go_replicate,
      List.singleton_append, readLength?.go, hne, if_neg Bool.false_ne_true, hlast]
    congr 2
    omega

theorem token_halves (a b : Nat) :
    ((16 * tokenBits a + tokenBits b).toUInt8 / 16).toNat = tokenBits a ∧
      ((16 * tokenBits a + tokenBits b).toUInt8 % 16).toNat = tokenBits b := by
  have ha : tokenBits a ≤ 15 := Nat.min_le_right a 15
  have hb : tokenBits b ≤ 15 := Nat.min_le_right b 15
  have htoken : (16 * tokenBits a + tokenBits b).toUInt8.toNat = 16 * tokenBits a + tokenBits b :=
    Nat.mod_eq_of_lt (by omega)
  rw [UInt8.toNat_div, UInt8.toNat_mod, htoken]
  show (16 * tokenBits a + tokenBits b) / 16 = _ ∧ (16 * tokenBits a + tokenBits b) % 16 = _
  omega

/-! ## Reading -/

theorem push_append_pack (out : ByteArray) (o : UInt8) (s : List UInt8) :
    out.push o ++ Octets.pack s = out ++ Octets.pack (o :: s) := by
  apply ByteArray.ext
  simp [Octets.pack]

theorem takeOnto?_append (literals s : List UInt8) (out : ByteArray) :
    takeOnto? literals.length out (literals ++ s) = some (out ++ Octets.pack literals, s) := by
  induction literals generalizing out with
  | nil =>
    have hnil : out ++ Octets.pack [] = out := by
      apply ByteArray.ext
      simp [Octets.pack]
    rw [List.length_nil, List.nil_append, takeOnto?, hnil]
  | cons o literals ih =>
    rw [List.length_cons, List.cons_append, takeOnto?, ih, push_append_pack]

theorem extract_push (bytes : ByteArray) {p : Nat} (hp : p < bytes.size) :
    (bytes.extract 0 p).push (Octets.byteAt bytes p) = bytes.extract 0 (p + 1) := by
  have hbyte : Octets.byteAt bytes p = bytes[p] := dif_pos hp
  rw [hbyte]
  apply ByteArray.ext
  rw [ByteArray.data_push, ByteArray.data_extract, ByteArray.data_extract]
  exact Array.push_extract_getElem hp

theorem size_front (bytes : ByteArray) {p : Nat} (hp : p ≤ bytes.size) :
    (bytes.extract 0 p).size = p := by
  rw [ByteArray.size_extract, Nat.min_eq_left hp, Nat.sub_zero]

/-- From position `p` on, `n` bytes repeat those that stand `offset` before them. -/
def Repeats (bytes : ByteArray) (p offset n : Nat) : Prop :=
  ∀ i < n, Octets.byteAt bytes (p + i) = Octets.byteAt bytes (p + i - offset)

/-- A match may reach into the bytes that it makes itself, so it goes byte by byte. -/
theorem repeatOnto_front {bytes : ByteArray} {p offset n : Nat} (h1 : 1 ≤ offset)
    (hoffset : offset ≤ p) (hn : p + n ≤ bytes.size) (h : Repeats bytes p offset n) :
    repeatOnto n offset (bytes.extract 0 p) = bytes.extract 0 (p + n) := by
  induction n generalizing p with
  | zero => rfl
  | succ n ih =>
    have hbyte : Octets.byteAt (bytes.extract 0 p) (p - offset) = Octets.byteAt bytes p := by
      rw [Octets.byteAt_extract bytes (by omega) (by omega), Nat.zero_add]
      exact (h 0 (Nat.succ_pos n)).symm
    rw [repeatOnto, size_front bytes (by omega), hbyte, extract_push bytes (by omega),
      ih (by omega) (by omega)]
    · congr 1
      omega
    · intro i hi
      rw [show p + 1 + i = p + (i + 1) by omega]
      exact h (i + 1) (by omega)

/-- The sequence carries the bytes on from position `start`. -/
structure Sequence.Carries (bytes : ByteArray) (start stop : Nat) (q : Sequence) : Prop where
  /-- The match stands behind the literals. -/
  literals_eq : q.literals = Octets.unpack (bytes.extract start (start + q.literals.length))
  stop_eq : stop = start + q.literals.length + q.length
  stop_le : stop ≤ bytes.size
  length_ge : 4 ≤ q.length
  offset_pos : 1 ≤ q.offset
  offset_le : q.offset ≤ start + q.literals.length
  offset_lt : q.offset < 65536
  repeats : Repeats bytes (start + q.literals.length) q.offset q.length

/-- Sequences carry the bytes on from one position to another. -/
inductive Spells (bytes : ByteArray) : Nat → List Sequence → Nat → Prop
  | nil (p : Nat) : Spells bytes p [] p
  | cons {start next stop : Nat} {q : Sequence} {rest : List Sequence}
    (hq : q.Carries bytes start next) (hrest : Spells bytes next rest stop) :
    Spells bytes start (q :: rest) stop

theorem pack_unpack (bytes : ByteArray) : Octets.pack (Octets.unpack bytes) = bytes := rfl

theorem front_append_literals {bytes : ByteArray} {start : Nat} {literals : List UInt8}
    (h : literals = Octets.unpack (bytes.extract start (start + literals.length))) :
    bytes.extract 0 start ++ Octets.pack literals = bytes.extract 0 (start + literals.length) := by
  have happend := congrArg (bytes.extract 0 start ++ Octets.pack ·) h
  simp only [pack_unpack, ByteArray.extract_append_extract] at happend
  rw [happend, Nat.min_eq_left (Nat.zero_le _), Nat.max_eq_right (Nat.le_add_right _ _)]

theorem readSequences?_octets {bytes : ByteArray} {start stop : Nat} {q : Sequence}
    (hq : q.Carries bytes start stop) (fuel : Nat) (s : List UInt8) :
    readSequences? bytes.size (fuel + 1) (q.octets ++ s) (bytes.extract 0 start) =
      readSequences? bytes.size fuel s (bytes.extract 0 stop) := by
  obtain ⟨hliterals, rfl, hstop, hlength, hpos, hle, hlt, hrepeats⟩ := hq
  obtain ⟨hhigh, hlow⟩ := token_halves q.literals.length (q.length - 4)
  have hoffset : (q.offset % 256).toUInt8.toNat + 256 * (q.offset / 256).toUInt8.toNat =
      q.offset := by
    have h1 : (q.offset % 256).toUInt8.toNat = q.offset % 256 := Nat.mod_eq_of_lt (by omega)
    have h2 : (q.offset / 256).toUInt8.toNat = q.offset / 256 := Nat.mod_eq_of_lt (by omega)
    omega
  have hlimit : ¬ bytes.size < (bytes.extract 0 start).size + q.literals.length := by
    rw [size_front bytes (by omega)]
    omega
  have hsize : (bytes.extract 0 (start + q.literals.length)).size = _ := size_front bytes (by omega)
  have hmatch : ¬ (q.offset = 0 ∨ (bytes.extract 0 (start + q.literals.length)).size < q.offset ∨
      bytes.size < (bytes.extract 0 (start + q.literals.length)).size + (q.length - 4 + 4)) := by
    rw [hsize]
    omega
  unfold Sequence.octets
  simp only [List.cons_append, List.append_assoc, List.nil_append, readSequences?, hhigh, hlow,
    readLength?_lengthOctets, takeOnto?_append, front_append_literals hliterals, if_neg hlimit,
    Option.bind_eq_bind, Option.bind_some, hoffset, if_neg hmatch]
  rw [Nat.sub_add_cancel hlength, repeatOnto_front hpos hle hstop hrepeats]

theorem Spells.snoc {bytes : ByteArray} {start next stop : Nat} {sequences : List Sequence}
    {q : Sequence} (h : Spells bytes start sequences next) (hq : q.Carries bytes next stop) :
    Spells bytes start (sequences ++ [q]) stop := by
  induction h with
  | nil p => exact .cons hq (.nil stop)
  | cons hfirst _ ih => exact .cons hfirst (ih hq)

/-- Reading the sequences that carry the bytes on. -/
theorem readSequences?_of_spells {bytes : ByteArray} {start stop : Nat} {sequences : List Sequence}
    (h : Spells bytes start sequences stop) (fuel : Nat) (s : List UInt8) :
    readSequences? bytes.size (fuel + sequences.length) (sequences.flatMap Sequence.octets ++ s)
        (bytes.extract 0 start) =
      readSequences? bytes.size fuel s (bytes.extract 0 stop) := by
  induction h with
  | nil p => rfl
  | @cons start next stop q rest hq hrest ih =>
    rw [List.flatMap_cons, List.append_assoc, List.length_cons, ← Nat.add_assoc,
      readSequences?_octets hq, ih]

/-- The literals that end a block are read up to the end of the bytes. -/
theorem readSequences?_closingOctets {bytes : ByteArray} {start : Nat} (hstart : start ≤ bytes.size)
    (fuel : Nat) :
    readSequences? bytes.size (fuel + 1)
      (closingOctets (Octets.unpack (bytes.extract start bytes.size))) (bytes.extract 0 start) =
      some bytes := by
  have hlength : (Octets.unpack (bytes.extract start bytes.size)).length = bytes.size - start := by
    rw [← Octets.size_pack, pack_unpack, ByteArray.size_extract, Nat.min_self]
  have hliterals : Octets.unpack (bytes.extract start bytes.size) = Octets.unpack (bytes.extract start
      (start + (Octets.unpack (bytes.extract start bytes.size)).length)) := by
    rw [hlength, Nat.add_sub_cancel' hstart]
  have hfront := front_append_literals hliterals
  rw [hlength, Nat.add_sub_cancel' hstart, ByteArray.extract_zero_size] at hfront
  generalize Octets.unpack (bytes.extract start bytes.size) = literals at hlength hfront
  obtain ⟨hhigh, -⟩ := token_halves literals.length 0
  rw [show 16 * tokenBits literals.length + tokenBits 0 = 16 * tokenBits literals.length from rfl]
    at hhigh
  have hlimit : ¬ bytes.size < (bytes.extract 0 start).size + literals.length := by
    rw [size_front bytes hstart]
    omega
  have htake := takeOnto?_append literals [] (bytes.extract 0 start)
  rw [List.append_nil] at htake
  unfold closingOctets
  simp only [List.cons_append, readSequences?, hhigh, readLength?_lengthOctets, htake, hfront,
    if_neg hlimit, Option.bind_eq_bind, Option.bind_some, Option.pure_def]

/-! ## Finding matches -/

theorem repeats_matchLength (bytes : ByteArray) (stop fuel p q : Nat) :
    (∀ i < matchLength bytes stop fuel p q,
      Octets.byteAt bytes (p + i) = Octets.byteAt bytes (q + i)) ∧
      (0 < matchLength bytes stop fuel p q → p + matchLength bytes stop fuel p q ≤ stop) := by
  induction fuel generalizing p q with
  | zero => exact ⟨fun i hi => absurd hi (Nat.not_lt_zero i), fun h => absurd h (Nat.lt_irrefl 0)⟩
  | succ fuel ih =>
    rw [matchLength]
    split
    · next h =>
      rw [Bool.and_eq_true, decide_eq_true_eq, beq_iff_eq] at h
      obtain ⟨hstop, heq⟩ := h
      obtain ⟨hbytes, hle⟩ := ih (p + 1) (q + 1)
      constructor
      · intro i hi
        cases i with
        | zero => exact heq
        | succ i =>
          rw [show p + (i + 1) = p + 1 + i by omega, show q + (i + 1) = q + 1 + i by omega]
          exact hbytes i (by omega)
      · intro _
        by_cases h0 : 0 < matchLength bytes stop fuel (p + 1) (q + 1)
        · have := hle h0
          omega
        · omega
    · exact ⟨fun i hi => absurd hi (Nat.not_lt_zero i), fun h => absurd h (Nat.lt_irrefl 0)⟩

/-- A match that was found behind literals carries the bytes on. `before` is the position plus one
from which it repeats. -/
theorem carries_of_match {bytes : ByteArray} {start p before stop fuel : Nat}
    (hstop : stop ≤ bytes.size) (hstart : start ≤ p) (hp : p ≤ bytes.size) (hle : before ≤ p)
    (hnear : before ≠ 0 ∧ p + 1 - before < 65536)
    (hlength : 4 ≤ matchLength bytes stop fuel p (before - 1)) :
    Sequence.Carries bytes start (p + matchLength bytes stop fuel p (before - 1))
      ⟨Octets.unpack (bytes.extract start p), p + 1 - before,
        matchLength bytes stop fuel p (before - 1)⟩ := by
  obtain ⟨hbytes, hend⟩ := repeats_matchLength bytes stop fuel p (before - 1)
  have hend := hend (by omega)
  generalize matchLength bytes stop fuel p (before - 1) = length at *
  have hliterals : start + (Octets.unpack (bytes.extract start p)).length = p := by
    rw [← Octets.size_pack, pack_unpack, ByteArray.size_extract, Nat.min_eq_left hp]
    omega
  constructor
  · exact congrArg (fun stop => Octets.unpack (bytes.extract start stop)) hliterals.symm
  · exact congrArg (· + length) hliterals.symm
  · exact Nat.le_trans hend hstop
  · exact hlength
  · show 1 ≤ p + 1 - before
    omega
  · show p + 1 - before ≤ start + (Octets.unpack (bytes.extract start p)).length
    omega
  · exact hnear.2
  · show Repeats bytes (start + (Octets.unpack (bytes.extract start p)).length) (p + 1 - before) length
    rw [hliterals]
    intro i hi
    rw [hbytes i hi]
    congr 1
    omega

/-- The table holds positions up to `p`, each plus one. -/
def TableUpTo (table : Array Nat) (p : Nat) : Prop :=
  ∀ place, table.getD place 0 ≤ p

theorem TableUpTo.set {table : Array Nat} {p p' : Nat} (h : TableUpTo table p) (hp : p < p')
    (place : Nat) : TableUpTo (table.set! place (p + 1)) p' := by
  intro i
  have hi := h i
  rw [Array.getD_eq_getD_getElem?] at hi ⊢
  rw [Array.set!_eq_setIfInBounds, Array.getElem?_setIfInBounds]
  split
  · split
    · exact hp
    · exact Nat.zero_le _
  · omega

/-- Sequences that carry the bytes on from the start, and the literals behind them. -/
def IsCut (bytes : ByteArray) (cut : List Sequence × List UInt8) : Prop :=
  ∃ stop ≤ bytes.size, Spells bytes 0 cut.1 stop ∧
    cut.2 = Octets.unpack (bytes.extract stop bytes.size)

/-- What is found from some position on carries the bytes on to the literals behind it. -/
theorem isCut_findSequences {bytes : ByteArray} (fuel : Nat) {table : Array Nat} {start p : Nat}
    (htable : TableUpTo table p) (hstart : start ≤ p) (hp : start ≤ bytes.size)
    {found : List Sequence} (hfound : Spells bytes 0 found.reverse start) :
    IsCut bytes (findSequences bytes fuel table start p found) := by
  induction fuel generalizing table start p found with
  | zero => exact ⟨start, hp, hfound, rfl⟩
  | succ fuel ih =>
    rw [findSequences]
    split
    · exact ⟨start, hp, hfound, rfl⟩
    · next hend =>
      have hbefore := htable (tablePlace bytes p)
      have htable' : TableUpTo (table.set! (tablePlace bytes p) (p + 1)) (p + 1) :=
        htable.set (Nat.lt_succ_self p) _
      have hskip := ih htable' (by omega) hp hfound
      extract_lets place before table' length
      by_cases hfar : (before = 0 || maxOffset < p + 1 - before) = true
      · -- a place that holds nothing, or something too far back, makes no match
        have h0 : length = 0 := if_pos hfar
        rw [if_pos (by omega)]
        exact hskip
      · have hlength : length = matchLength bytes (bytes.size - 5) bytes.size p (before - 1) :=
          if_neg hfar
        have hnear : before ≠ 0 ∧ p + 1 - before < 65536 := by
          rw [Bool.or_eq_true, decide_eq_true_eq, decide_eq_true_eq, not_or, maxOffset] at hfar
          omega
        split
        · exact hskip
        · next hlong =>
          have hcarries : Sequence.Carries bytes start _ _ := carries_of_match (Nat.sub_le _ 5)
            hstart (by omega) hbefore hnear (hlength ▸ Nat.not_lt.1 hlong)
          rw [← hlength] at hcarries
          refine ih (fun place => Nat.le_trans (htable' place) (by omega)) (Nat.le_refl _)
            hcarries.stop_le ?_
          rw [List.reverse_cons]
          exact hfound.snoc hcarries

theorem length_le_octets (sequences : List Sequence) :
    sequences.length ≤ (sequences.flatMap Sequence.octets).length := by
  induction sequences with
  | nil => exact Nat.le_refl 0
  | cons q rest ih =>
    rw [List.flatMap_cons, List.length_append, List.length_cons, Sequence.octets]
    simp only [List.cons_append, List.length_cons]
    omega

/-- **Blocks are read back.** -/
theorem decompress?_compress (bytes : ByteArray) :
    decompress? bytes.size (compress bytes) = some bytes := by
  have htable : TableUpTo (Array.replicate tableSize 0) 0 := by
    intro place
    rw [Array.getD_eq_getD_getElem?, Array.getElem?_replicate]
    split <;> exact Nat.le_refl 0
  have hnone : Spells bytes 0 ([] : List Sequence).reverse 0 := .nil 0
  obtain ⟨stop, hstop, hspells, hliterals⟩ :=
    isCut_findSequences (bytes.size + 1) htable (Nat.le_refl 0) (Nat.zero_le _) hnone
  unfold decompress? compress
  generalize findSequences bytes (bytes.size + 1) (Array.replicate tableSize 0) 0 0 [] = cut
    at hspells hliterals ⊢
  obtain ⟨sequences, literals⟩ := cut
  have hlength := length_le_octets sequences
  have hfuel : (sequences.flatMap Sequence.octets ++ closingOctets literals).length + 1 =
      (sequences.flatMap Sequence.octets ++ closingOctets literals).length - sequences.length + 1 +
        sequences.length := by
    rw [List.length_append]
    omega
  rw [hfuel, show ByteArray.empty = bytes.extract 0 0 from ByteArray.extract_same.symm,
    readSequences?_of_spells hspells]
  have hclosing := readSequences?_closingOctets hstop
    ((sequences.flatMap Sequence.octets ++ closingOctets literals).length - sequences.length)
  rw [← hliterals] at hclosing
  exact hclosing

end Block

/-- **Compressed blobs are read back**, as far as their size fits 32 bits. -/
theorem Blob.decompress_compress {blob : ByteArray} (h : blob.size < 2 ^ 32) :
    Blob.decompress (Blob.compress blob) = .ok blob := by
  have hsize : (Blob.compress blob).size = 4 + (Block.compress blob).length := by
    rw [Blob.compress, Octets.size_pack, List.length_append, Octets.length_ofWord]
  have hstated : (Octets.wordAt (Blob.compress blob) 0 4).toNat = blob.size := by
    have hword : blob.size.toUInt64.toNat = blob.size := Nat.mod_eq_of_lt (by omega)
    have hread := Octets.wordAt_ofWord [] (Block.compress blob) (n := 4) (by decide)
      blob.size.toUInt64
    rw [Morton.and_lowMask (by rw [hword]; exact h)] at hread
    exact (congrArg UInt64.toNat hread).trans hword
  have hblock : Octets.unpack ((Blob.compress blob).extract 4 (Blob.compress blob).size) =
      Block.compress blob := by
    have hfront : (Octets.pack (Octets.ofWord 4 blob.size.toUInt64)).size = 4 := by
      rw [Octets.size_pack, Octets.length_ofWord]
    have hextract : (Blob.compress blob).extract 4 (Blob.compress blob).size =
        Octets.pack (Block.compress blob) := by
      unfold Blob.compress
      rw [Octets.pack_append]
      exact ByteArray.extract_append_eq_right hfront.symm ByteArray.size_append
    rw [hextract, Octets.unpack_pack]
  unfold Blob.decompress
  rw [if_neg (by omega), hstated, hblock]
  simp only [Block.decompress?_compress]

end ImplicitTiling
