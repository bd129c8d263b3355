import ImplicitTiling.Json.Printer
import ImplicitTiling.Json.Reader

/-!
# Strings read back

`readString?_quoted`: a string in quotes is read as that string, whatever characters it holds. Each
octet of the text is written as one piece (`pieceOf`), and the pieces spell the octets again.
-/

namespace ImplicitTiling.Json

/-- The piece as which an octet of a string is written. -/
def pieceOf (o : UInt8) : Piece :=
  if o < 32 ∧ o ≠ 8 ∧ o ≠ 12 ∧ o ≠ 10 ∧ o ≠ 13 ∧ o ≠ 9 then .unit o.toNat else .octet o

/-! ## Control characters -/

theorem unit?_hexOctet {o : UInt8} (h : o < 32) :
    unit? 48 48 (hexOctet (o / 16)) (hexOctet (o % 16)) = some o.toNat := by
  have hall : ∀ n : Fin 32, unit? 48 48 (hexOctet (UInt8.ofNat n / 16))
      (hexOctet (UInt8.ofNat n % 16)) = some n := by
    decide
  have hlt : o.toNat < 32 := h
  simpa using hall ⟨o.toNat, hlt⟩

theorem codePointOctets_control {o : UInt8} (h : o < 32) : codePointOctets o.toNat = [o] := by
  have hall : ∀ n : Fin 32, codePointOctets n = [UInt8.ofNat n] := by
    decide
  have hlt : o.toNat < 32 := h
  simpa using hall ⟨o.toNat, hlt⟩

/-! ## Reading pieces -/

theorem readPieces?_plain (read : List Piece) {o : UInt8} (s : List UInt8) (h34 : o ≠ 34)
    (h92 : o ≠ 92) (h32 : ¬ o < 32) :
    readPieces? read (o :: s) = readPieces? (.octet o :: read) s := by
  rw [readPieces?.eq_def read]
  split
  · next h => cases h
  · next h => exact absurd (List.cons.inj h).1 h34
  · next h => exact absurd (List.cons.inj h).1 h92
  · next h => exact absurd (List.cons.inj h).1 h92
  · next h =>
    cases h
    rw [if_neg h32]

theorem readPieces?_unit (read : List Piece) {a b c d : UInt8} (s : List UInt8) {u : Nat}
    (h : unit? a b c d = some u) :
    readPieces? read (92 :: 117 :: a :: b :: c :: d :: s) = readPieces? (.unit u :: read) s := by
  rw [readPieces?, h]

/-- An octet as it is written is read as its piece. -/
theorem readPieces?_escapeOctet (read : List Piece) (o : UInt8) (s : List UInt8) :
    readPieces? read (escapeOctet o ++ s) = readPieces? (pieceOf o :: read) s := by
  unfold escapeOctet
  split
  · next h => rw [beq_iff_eq.1 h]; rfl
  split
  · next h => rw [beq_iff_eq.1 h]; rfl
  split
  · next h => rw [beq_iff_eq.1 h]; rfl
  split
  · next h => rw [beq_iff_eq.1 h]; rfl
  split
  · next h => rw [beq_iff_eq.1 h]; rfl
  split
  · next h => rw [beq_iff_eq.1 h]; rfl
  split
  · next h => rw [beq_iff_eq.1 h]; rfl
  next h34 h92 h8 h12 h10 h13 h9 =>
  rw [beq_iff_eq] at h34 h92 h8 h12 h10 h13 h9
  split
  · next h =>
    rw [pieceOf, if_pos ⟨h, h8, h12, h10, h13, h9⟩]
    exact readPieces?_unit read s (unit?_hexOctet h)
  · next h =>
    rw [List.singleton_append, readPieces?_plain read s h34 h92 h, pieceOf,
      if_neg fun hc => h hc.1]

/-- The octets of a string as they are written are read as their pieces. -/
theorem readPieces?_flatMap (octets : List UInt8) (read : List Piece) (s : List UInt8) :
    readPieces? read (octets.flatMap escapeOctet ++ 34 :: s) =
      some (read.reverse ++ octets.map pieceOf, s) := by
  induction octets generalizing read with
  | nil =>
    rw [List.flatMap_nil, List.nil_append, List.map_nil, List.append_nil]
    rfl
  | cons o octets ih =>
    rw [List.flatMap_cons, List.append_assoc, readPieces?_escapeOctet, ih, List.reverse_cons,
      List.append_assoc, List.map_cons]
    rfl

/-! ## Spelling -/

theorem spellPieces?_unit (u : Nat) (rest : List Piece) (h : u < 32) :
    spellPieces? (.unit u :: rest) = (spellPieces? rest).map (codePointOctets u ++ ·) := by
  have h1 : ¬ (0xd800 ≤ u ∧ u < 0xdc00) := by omega
  have h2 : ¬ (0xdc00 ≤ u ∧ u < 0xe000) := by omega
  have h3 : ¬ (0xd800 ≤ u ∧ u < 0xe000) := by omega
  rw [spellPieces?.eq_def (.unit u :: rest)]
  split
  · next heq => cases heq
  · next heq => cases heq
  · next heq =>
    cases heq
    rw [if_neg h1, if_neg h2]
  · next heq =>
    cases heq
    rw [if_neg h3]

theorem spellPieces?_map_pieceOf (octets : List UInt8) :
    spellPieces? (octets.map pieceOf) = some octets := by
  induction octets with
  | nil => rfl
  | cons o octets ih =>
    rw [List.map_cons]
    by_cases h : o < 32 ∧ o ≠ 8 ∧ o ≠ 12 ∧ o ≠ 10 ∧ o ≠ 13 ∧ o ≠ 9
    · have hlt : o.toNat < 32 := h.1
      rw [pieceOf, if_pos h, spellPieces?_unit _ _ hlt, ih, codePointOctets_control h.1]
      rfl
    · rw [pieceOf, if_neg h, spellPieces?, ih]
      rfl

theorem fromUTF8?_toUTF8 (s : String) : String.fromUTF8? s.toUTF8 = some s := by
  unfold String.fromUTF8?
  rw [String.toUTF8_eq_toByteArray, dif_pos s.isValidUTF8]
  rfl

/-- **Strings read back.** A string behind its opening quote is read up to its closing quote. -/
theorem readString?_quoted (text : String) (s : List UInt8) :
    readString? ((Octets.unpack text.toUTF8).flatMap escapeOctet ++ 34 :: s) =
      some (some text, s) := by
  have htext : pieceText? ((Octets.unpack text.toUTF8).map pieceOf) = some text := by
    unfold pieceText?
    rw [spellPieces?_map_pieceOf]
    exact fromUTF8?_toUTF8 text
  rw [readString?, readPieces?_flatMap, List.reverse_nil, List.nil_append]
  dsimp only [Option.map]
  rw [htext]

end ImplicitTiling.Json
