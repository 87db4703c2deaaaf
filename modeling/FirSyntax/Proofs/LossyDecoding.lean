import FirSyntax.Proofs.Identifiers
import FirSyntax.Proofs.Source.Decoder
import FirSyntax.Proofs.Source.Lossy

/-!
# A source is decoded while it is walked over

The decoder keeps four bytes in view and two code points in hand, and yet finds what a decoder of the
whole input finds. The bytes between two places where it has been are decoded alike on their own, so the
text of a run, and whether the run can be normalized, may be asked of its bytes.
-/
namespace FirSyntax

namespace Unicode.CharData

open Source

variable {U : CharData} {pieces : List Piece}

/-- Normalization fails on pieces of which one is no code point. -/
theorem normalizePieces_error_iff :
    (∃ e, U.normalizePieces 0 [] pieces = .error e) ↔ ∃ p ∈ pieces, p.isInvalid = true := by
  constructor
  · rintro ⟨e, he⟩
    by_contra hnone
    obtain ⟨cs, rfl⟩ := @Token.exists_chars pieces (by simpa using hnone)
    rw [normalizePieces_chars] at he
    cases he
  · rintro ⟨p, hp, hinvalid⟩
    cases hresult : U.normalizePieces 0 [] pieces with
    | error e => exact ⟨e, rfl⟩
    | ok text =>
      obtain ⟨cs, rfl, -⟩ := of_normalizePieces hresult
      obtain ⟨c, -, rfl⟩ := List.mem_map.mp hp
      cases hinvalid

end Unicode.CharData

namespace Source

theorem Cursor.rest_iterate_step (pieces : List Piece) (n : Nat) :
    (step^[n] (start pieces)).rest = pieces.drop n := by
  induction n with
  | zero => rfl
  | succ n ih => rw [Function.iterate_succ_apply', rest_step, ih, List.tail_drop]

/-- The run of an identifier is some of the pieces of its input. -/
theorem exists_drop_of_runAt {U : Unicode.CharData} {input run : List Piece} {l : Location}
    (h : Token.RunAt U input l run) : ∃ i, run = (input.drop i).take run.length := by
  obtain ⟨d, rest, ⟨i, rfl⟩, -, hrest, -⟩ := h.place
  rw [Cursor.rest_iterate_step] at hrest
  exact ⟨i, by rw [hrest, List.take_left]⟩

namespace Decoder

theorem text_eq (d : Decoder) (i j : Nat) : d.text i j = shown (decode (slice d.input i j)) := by
  have hvalidated := validated (slice d.input i j)
  rw [text]
  generalize validate (slice d.input i j) = r at hvalidated
  cases hvalidated with
  | ok h => rw [h, Token.shown_chars]
  | error => rfl

theorem atMalformed_iff (bytes : List UInt8) (n : Nat) :
    (atPiece bytes n).atMalformed = true ↔
      ∃ bs, (decode (withoutMark bytes))[n]? = some (.invalid bs) := by
  cases hp : (decode (withoutMark bytes))[n]? with
  | none =>
    rw [atPiece_of_le (List.getElem?_eq_none_iff.mp hp)]
    simp [atMalformed]
  | some p =>
    rw [atMalformed_atPiece hp]
    cases p with
    | char c => simp [Piece.isInvalid]
    | invalid bs => simp [Piece.isInvalid]

/-- A decoder that walks over a source has its lossy decoding, and no other list of pieces, for what it
comes past: it stands at one piece after the other, with the next piece behind it, and each is made of
the bytes between its position and the next, one to four of them. The positions are in order and inside
the source. Bytes that encode nothing are told apart from a genuine U+FFFD. From any of the positions to
a later one, the bytes alone give the text of the pieces between, and they can be normalized unless one
of these is no code point; the run of an identifier is such pieces. -/
theorem walks_lossy (U : Unicode.CharData) (bytes : List UInt8) :
    let pieces := ofBytes bytes
    let state (n : Nat) := advance^[n] (start bytes.toArray)
    (∀ ps, LossyDecoding (withoutMark bytes) ps ↔ ps = pieces) ∧
      bytes.drop (state 0).currentPos = withoutMark bytes ∧
      (∀ n, (state n).input = bytes.toArray ∧
        (state n).current? = pieces[n]?.map Piece.shown ∧
        (state n).next? = (state (n + 1)).current? ∧
        (state n).nextPos = (state (n + 1)).currentPos ∧
        (state n).nextEnd = (state (n + 1)).nextPos ∧
        (state n).currentPos ≤ (state n).nextPos ∧
        (state n).nextPos ≤ (state n).nextEnd ∧
        (state n).nextEnd ≤ bytes.length ∧
        ((state n).atMalformed = true ↔ ∃ bs, pieces[n]? = some (.invalid bs)) ∧
        (∀ p, pieces[n]? = some p → 1 ≤ p.bytes.length ∧ p.bytes.length ≤ 4 ∧
          slice bytes.toArray (state n).currentPos (state n).nextPos = p.bytes) ∧
        (pieces[n]? = none → (state n).currentPos = bytes.length) ∧
        (Cursor.step^[n] (Cursor.start pieces)).rest = pieces.drop n) ∧
      (∀ i k, let run := (pieces.drop i).take k
        let part := slice bytes.toArray (state i).currentPos (state (i + k)).currentPos
        part = run.flatMap Piece.bytes ∧
        (state (i + k)).text (state i).currentPos (state (i + k)).currentPos = shown run ∧
        U.nfkcOfBytes part = U.normalizePieces 0 [] run ∧
        ((∃ e, U.nfkcOfBytes part = .error e) ↔ ∃ p ∈ run, p.isInvalid = true)) ∧
      ∀ l run, Token.RunAt U pieces l run → ∃ i, run = (pieces.drop i).take run.length := by
  intro pieces state
  have hpieces : pieces = decode (withoutMark bytes) := ofBytes_eq bytes
  have hstate (n : Nat) : state n = atPiece bytes n := iterate_advance bytes n
  clear_value pieces state
  subst hpieces
  simp only [hstate]
  refine ⟨fun ps => lossyDecoding_iff, drop_markLength bytes,
    fun n => ⟨rfl, rfl, rfl, rfl, rfl, begins_mono bytes n 1, begins_mono bytes (n + 1) 1,
      begins_le bytes (n + 2), atMalformed_iff bytes n, fun p hp => ?_, fun hnone => ?_,
      Cursor.rest_iterate_step _ n⟩,
    fun i k => ?_, fun l run => exists_drop_of_runAt⟩
  · obtain ⟨hpos, hle⟩ := length_of_mem_decode (List.mem_of_getElem? hp)
    exact ⟨hpos, hle, slice_atPiece hp⟩
  · exact begins_of_le (List.getElem?_eq_none_iff.mp hnone)
  · have hrun := decode_slice_begins bytes i k
    have hnormalize : U.nfkcOfBytes (slice bytes.toArray (begins bytes i) (begins bytes (i + k))) =
        U.normalizePieces 0 [] (((decode (withoutMark bytes)).drop i).take k) := by
      rw [Unicode.CharData.nfkcOfBytes, hrun]
    refine ⟨slice_begins bytes i k, ?_, hnormalize, ?_⟩
    · rw [text_eq]
      exact congrArg shown hrun
    · rw [← Unicode.CharData.normalizePieces_error_iff (U := U), ← hnormalize]
      rfl

end Decoder

end Source

end FirSyntax
