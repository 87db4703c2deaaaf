import FirSyntax.Proofs.Token.Order
import FirSyntax.Proofs.Token.Scans

/-!
# Mismatched indentation in a stream

A mismatch is found at the start of a line and before any level is closed there, so the token in
front of it is the end of a line. Although a mismatch takes no place, no earlier token shares its
location.
-/
namespace FirSyntax.Token

open Source Unicode

variable {U : CharData}

/-- No token in front of a mismatch shares its location. -/
def Stream.MismatchesApart (s : Stream) : Prop :=
  s.tokens.Pairwise fun t u => u.kind = .indentMismatch → t.location < u.location

namespace Scanner

variable {s s' s'' : Scanner} {t u : Token}

theorem Scans.shift_of_mismatch (h : s.Scans U t s') (ht : t.kind = .indentMismatch) :
    s.layout.atLineStart = true ∧ s.front.rest ≠ [] ∧
      ∃ m, s.layout.shift? (s.front.location.column - 1) = some (.indentMismatch, m) := by
  cases h with
  | ending | closing | newline => cases ht
  | @shift k m hstart hne hshift =>
    obtain rfl : k = .indentMismatch := ht
    exact ⟨hstart, hne, m, hshift⟩
  | @lexeme first =>
    have hcontent := isLayout_lexeme U first s.front
    rw [ht] at hcontent
    cases hcontent

/-- Behind anything else than the end of a line there is no mismatch. -/
theorem Scans.newline_of_mismatch (h : s.Scans U t s') (h' : s'.Scans U u s'')
    (hu : u.kind = .indentMismatch) : t.kind = .newline := by
  obtain ⟨hstart, hne, m, hmismatch⟩ := h'.shift_of_mismatch hu
  cases h with
  | newline => rfl
  | ending hnil | closing hnil =>
    refine absurd ?_ hne
    have hrest := Cursor.length_skip_le (spaceTest s.layout.atLineStart) s.front
    rw [hnil] at hrest
    exact List.length_eq_zero_iff.mp (Nat.le_zero.mp hrest)
  | lexeme => cases hstart
  | shift hstart' _ hshift =>
    obtain ⟨rfl, -, rfl⟩ | ⟨top, outer, -, -, ⟨rfl, -, rfl⟩ | ⟨rfl, hreached, rfl⟩⟩ :=
      Layout.shift_cases hshift
    · cases hstart
    · cases hstart
    · -- The width is that of a level that is still open.
      have hfront : front ⟨s.front, ⟨outer, true⟩⟩ = s.front := by
        rw [front_of_start rfl, front_of_start hstart']
        exact skip_skip _ _
      rw [hfront] at hmismatch
      obtain ⟨hzero, hmem⟩ := Layout.unreached_of_mismatch hmismatch
      exact absurd hreached (not_or.mpr ⟨hzero, hmem⟩)

theorem stream_mismatchesApart (s : Scanner) : (s.stream U).MismatchesApart := by
  by_cases heof : (s.scan U).1.kind = .eof
  · rw [stream_of_eof rfl heof]
    exact .nil
  · have hlt := weight_scan U heof
    have hlater := stream_mismatchesApart (s.scan U).2
    have hordered := (stream_ordered (U := U) s).1
    rw [stream_eq heof] at hordered ⊢
    refine List.pairwise_cons.mpr ⟨fun u hu hmismatch => ?_, hlater⟩
    by_cases hnewline : (s.scan U).1.kind = .newline
    · have hbefore : Before (s.scan U).1 u :=
        List.rel_of_pairwise_cons hordered (List.mem_append_left _ hu)
      exact hbefore.2 (by rw [hnewline]; rfl)
    · -- The token in between is no mismatch and stands before this one.
      have hnext : ((s.scan U).2.scan U).1.kind ≠ .eof := by
        intro hend
        rw [stream_of_eof rfl hend] at hu
        cases hu
      have hle : (s.scan U).1.location ≤ ((s.scan U).2.scan U).1.location := by
        rw [stream_eq hnext] at hordered
        exact (List.rel_of_pairwise_cons hordered List.mem_cons_self).1
      rw [Stream.MismatchesApart, stream_eq hnext] at hlater
      rw [stream_eq hnext] at hu
      rcases List.mem_cons.mp hu with rfl | hu
      · exact absurd ((s.scan_scans U).newline_of_mismatch (scan_scans U _) hmismatch) hnewline
      · exact lt_of_le_of_lt hle (List.rel_of_pairwise_cons hlater hu hmismatch)
termination_by s.weight

end Scanner

theorem Stream.mismatchesApart_ofBytes (U : CharData) (bytes : List UInt8) :
    (ofBytes U bytes).MismatchesApart :=
  Scanner.stream_mismatchesApart _

end FirSyntax.Token
