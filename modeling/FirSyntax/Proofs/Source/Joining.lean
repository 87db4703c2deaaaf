import FirSyntax.Proofs.Source.Spans
import FirSyntax.Proofs.Source.Decoder

/-!
# Sources one behind the other

Bytes that end with a line terminator are decoded apart from what follows them, and a byte order
mark counts at the beginning only.
-/
namespace FirSyntax.Source

variable {back : List UInt8} {c : Char}

theorem terminator_cases (h : (Piece.char c).isTerminator = true) :
    c = '\n' ∨ c = '\x0b' ∨ c = '\x0c' ∨ c = '\u0085' ∨ c = '\u2028' ∨ c = '\u2029' ∨ c = '\r' := by
  simp [Piece.isTerminator, endsLine, isTerminator] at h
  rcases h with ((((((h | h) | h) | h) | h) | h) | h) <;> simp [h]

/-- The encoding of a code point below the byte order mark begins neither like that mark nor like what
goes on with another encoding. -/
theorem utf8EncodeChar_lead (h : c.toNat < 0xF000) :
    ∃ e es, String.utf8EncodeChar c = e :: es ∧ isContinuation e = false ∧ e ≠ 0xEF := by
  have hlead {n : Nat} (hn : n < 0x80 ∨ 0xC0 ≤ n ∧ n < 0xEF) :
      isContinuation (UInt8.ofNat n) = false ∧ UInt8.ofNat n ≠ 0xEF := by
    have hnat := toNat_ofNat_of_lt (n := n) (by omega)
    simp only [isContinuation, Bool.and_eq_false_iff, decide_eq_false_iff_not, UInt8.le_iff_toNat_le,
      ne_eq, ← UInt8.toNat_inj, hnat]
    simp
    omega
  have hv : c.val.toNat = c.toNat := rfl
  unfold String.utf8EncodeChar
  simp only [hv]
  split
  · exact ⟨_, _, rfl, hlead (by omega)⟩
  · split
    · exact ⟨_, _, rfl, hlead (by omega)⟩
    · split
      · exact ⟨_, _, rfl, hlead (by omega)⟩
      · omega

theorem toNat_terminator (h : (Piece.char c).isTerminator = true) : c.toNat < 0xF000 := by
  rcases terminator_cases h with rfl | rfl | rfl | rfl | rfl | rfl | rfl <;> decide

/-- A byte order mark is taken off bytes in front of a code point as it is without that code point. -/
theorem withoutMark_append (init : List UInt8) (hc : c.toNat < 0xF000) (ys : List UInt8) :
    withoutMark (init ++ (String.utf8EncodeChar c ++ ys)) =
      withoutMark init ++ (String.utf8EncodeChar c ++ ys) := by
  by_cases hmark : ∃ rest, init = 0xEF :: 0xBB :: 0xBF :: rest
  · obtain ⟨rest, rfl⟩ := hmark
    rfl
  · have hinit : withoutMark init = init := by
      unfold withoutMark
      split
      · next rest => exact absurd ⟨rest, rfl⟩ hmark
      · rfl
    obtain ⟨e, es, he, hcontinuation, hne⟩ := utf8EncodeChar_lead hc
    rw [hinit, he]
    unfold withoutMark
    split
    · next rest heq =>
      rcases init with _ | ⟨a, _ | ⟨b, _ | ⟨d, init⟩⟩⟩
      · simp only [List.nil_append, List.cons_append, List.cons.injEq] at heq
        exact absurd heq.1 hne
      · simp only [List.nil_append, List.cons_append, List.cons.injEq] at heq
        rw [heq.2.1] at hcontinuation
        cases hcontinuation
      · simp only [List.nil_append, List.cons_append, List.cons.injEq] at heq
        rw [heq.2.2.1] at hcontinuation
        cases hcontinuation
      · simp only [List.cons_append, List.cons.injEq] at heq
        obtain ⟨rfl, rfl, rfl, -⟩ := heq
        exact absurd ⟨init, rfl⟩ hmark
    · rfl

/-- A source is decoded in front of a code point as it is whatever follows there. -/
theorem ofBytes_char (init : List UInt8) (hc : c.toNat < 0xF000) (ys : List UInt8) :
    ofBytes (init ++ (String.utf8EncodeChar c ++ ys)) = ofBytes init ++ .char c :: decode ys := by
  obtain ⟨e, es, he, hcontinuation, -⟩ := utf8EncodeChar_lead hc
  rw [ofBytes_eq, withoutMark_append init hc, decode_append _ (by simpa [he]), decode_utf8EncodeChar,
    ofBytes_eq]

/-- A line feed at the end of a source is a piece of its own. -/
theorem ofBytes_newline (bytes : List UInt8) :
    ofBytes (bytes ++ [0x0A]) = ofBytes bytes ++ [.char '\n'] := by
  have hchar := ofBytes_char (c := '\n') bytes (by decide) []
  rwa [decode_nil] at hchar

/-- The pieces of two sources, the first of which ends with a line terminator. -/
theorem ofBytes_append (init : List UInt8) (hc : (Piece.char c).isTerminator = true)
    (hback : (decode back).head? ≠ some (.char '\uFEFF')) :
    ofBytes (init ++ String.utf8EncodeChar c ++ back) =
        ofBytes (init ++ String.utf8EncodeChar c) ++ ofBytes back ∧
      Terminated (ofBytes (init ++ String.utf8EncodeChar c)) := by
  have hpieces := ofBytes_char init (toNat_terminator hc)
  have halone : ofBytes (init ++ String.utf8EncodeChar c) = ofBytes init ++ [.char c] := by
    have hnone := hpieces []
    rwa [List.append_nil, decode_nil] at hnone
  have hmark : ofBytes back = decode back := by rw [ofBytes_eq, withoutMark_of_head hback]
  refine ⟨?_, halone ▸ ⟨_, _, rfl, hc⟩⟩
  rw [halone, List.append_assoc, hpieces, hmark, List.append_assoc]
  rfl

end FirSyntax.Source
