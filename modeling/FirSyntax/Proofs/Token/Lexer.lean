import FirSyntax.Proofs.Token.Order
import FirSyntax.Proofs.Token.Spelling

/-!
# Remembered words

A lexer that remembers the words it had to normalize gives the tokens of the stream: what the memo
answers is what normalization would.
-/
namespace FirSyntax.Token

open Source Unicode

variable {U : CharData} {run : List Piece} {location : Location} {s s' : Scanner} {m : Memo}

/-! ## The memo -/

/-- Every remembered text is the normal form of its run. -/
def Memo.Sound (U : CharData) (m : Memo) : Prop :=
  ∀ run text, m.find? run = some text → U.normalizePieces 0 [] run = .ok text

namespace Memo

theorem sound_empty : empty.Sound U := by
  intro run text h
  simp [find?, empty] at h

theorem Sound.insert (hm : m.Sound U) {text : String}
    (h : U.normalizePieces 0 [] run = .ok text) : (m.insert run text).Sound U := by
  intro other text' hfind
  rw [find?, Memo.insert, List.lookup_cons] at hfind
  by_cases hrun : other = run
  · simp only [hrun, beq_self_eq_true, Option.some.injEq] at hfind
    rw [hrun, h, hfind]
  · simp only [beq_eq_false_iff_ne.2 hrun] at hfind
    exact hm other text' hfind

/-- A word is the same whether it is remembered or normalized. -/
theorem Sound.ofRun (hm : m.Sound U) (run : List Piece) (location : Location) :
    (m.ofRun U run location).1 = Token.ofRun U run location ∧ (m.ofRun U run location).2.Sound U := by
  rw [Memo.ofRun, Token.ofRun]
  split
  · exact ⟨rfl, hm⟩
  · cases hfind : m.find? run with
    | some text =>
      rw [hm run text hfind]
      exact ⟨rfl, hm⟩
    | none =>
      cases hnormalize : U.normalizePieces 0 [] run with
      | ok text => exact ⟨rfl, hm.insert hnormalize⟩
      | error _ => exact ⟨rfl, hm⟩

end Memo

/-! ## The scanner -/

namespace Scanner

theorem scan_of_settled? {t : Scanner} (h : s.settled? = some t) : s.scan U = t.content U := by
  cases hstart : s.layout.atLineStart with
  | false =>
    rw [settled?, hstart, if_neg Bool.false_ne_true, Option.some.injEq] at h
    rw [scan, hstart, if_neg Bool.false_ne_true, h]
  | true =>
    rw [settled?, hstart, if_pos rfl] at h
    rw [scan, hstart, if_pos rfl]
    dsimp only at h ⊢
    split at h
    · exact Option.some.inj h ▸ rfl
    · split at h
      · cases h
      · next hshift =>
        rw [hshift]
        exact Option.some.inj h ▸ rfl

/-- The word that is found ahead is the next token. -/
theorem scan_of_run? (h : s.run? U = some (run, location, s')) :
    s.scan U = (ofRun U run location, s') := by
  rw [run?] at h
  split at h
  · cases h
  · next t hsettled =>
    rw [scan_of_settled? hsettled, content]
    dsimp only at h ⊢
    generalize t.cursor.skip atInnerBlank = c at h ⊢
    obtain ⟨rest, l⟩ := c
    dsimp only at h ⊢
    split at h
    · split at h
      · next first _ hword =>
        rw [Bool.and_eq_true, Bool.not_eq_true'] at hword
        cases h
        obtain ⟨hinteger, hcomment⟩ := CharData.not_special_of_begins hword.2
        simp [hword.1, hword.2, hinteger, hcomment, lexeme, word]
      · cases h
    · cases h

theorem scanWith_eq (hm : m.Sound U) (s : Scanner) :
    (s.scanWith U m).1 = (s.scan U).1 ∧ (s.scanWith U m).2.2 = (s.scan U).2 ∧
      (s.scanWith U m).2.1.Sound U := by
  rw [scanWith]
  cases hrun : s.run? U with
  | none => exact ⟨rfl, rfl, hm⟩
  | some found =>
    obtain ⟨run, location, after⟩ := found
    rw [scan_of_run? hrun]
    exact ⟨(hm.ofRun run location).1, rfl, (hm.ofRun run location).2⟩

/-- The scanner behind its first `n` tokens. -/
def after (U : CharData) (s : Scanner) (n : Nat) : Scanner := (fun s => (s.scan U).2)^[n] s

theorem after_succ (s : Scanner) (n : Nat) :
    s.after U (n + 1) = ((s.after U n).scan U).2 :=
  Function.iterate_succ_apply' _ _ _

theorem content_of_eof (h : (s.content U).1.kind = .eof) :
    ∃ l start, s.content U = (bare .eof l, ⟨⟨[], l⟩, ⟨[], start⟩⟩) := by
  rw [content] at h ⊢
  dsimp only at h ⊢
  generalize s.cursor.skip atInnerBlank = c at h ⊢
  generalize s.layout = layout at h ⊢
  obtain ⟨rest, l⟩ := c
  obtain ⟨levels, start⟩ := layout
  cases rest with
  | nil =>
    cases levels with
    | nil => exact ⟨l, start, rfl⟩
    | cons w outer => cases h
  | cons first rest =>
    dsimp only at h
    split at h
    · cases h
    · exact absurd h (Kind.ne_eof_of_content (isLayout_lexeme U first _))

/-- The end of the file leaves nothing to read. -/
theorem scan_of_eof (h : (s.scan U).1.kind = .eof) :
    ∃ l start, s.scan U = (bare .eof l, ⟨⟨[], l⟩, ⟨[], start⟩⟩) := by
  rw [scan] at h ⊢
  split at h
  · next hstart =>
    rw [if_pos hstart]
    dsimp only at h ⊢
    split at h
    · exact content_of_eof h
    · split at h
      · next hshift =>
        rcases Layout.kind_of_shift hshift with rfl | rfl | rfl
        all_goals cases h
      · exact content_of_eof h
  · next hstart =>
    rw [if_neg hstart]
    exact content_of_eof h

theorem head_drop_stream (s : Scanner) (n : Nat) :
    ((s.stream U).drop n).head = ((s.after U n).scan U).1 := by
  induction n generalizing s with
  | zero =>
    by_cases heof : (s.scan U).1.kind = .eof
    · obtain ⟨l, start, hscan⟩ := scan_of_eof heof
      rw [stream_of_eof hscan rfl, after, Function.iterate_zero_apply, hscan]
      rfl
    · rw [stream_of_token rfl heof]
      rfl
  | succ n ih =>
    have hstream : ((s.stream U).drop (n + 1)).head = (((s.scan U).2.stream U).drop n).head := by
      by_cases heof : (s.scan U).1.kind = .eof
      · obtain ⟨l, start, hscan⟩ := scan_of_eof heof
        rw [stream_of_eof hscan rfl, hscan, stream_of_end]
        simp [Stream.drop, Stream.head, bare]
      · rw [stream_of_token rfl heof]
        rfl
    rw [hstream, ih]
    rfl

end Scanner

/-- Scanning moves over the input. -/
theorem follows_after (input : List Piece) (n : Nat) :
    (Cursor.start input).Follows ((Scanner.start input).after U n).cursor := by
  induction n with
  | zero => exact .refl _
  | succ n ih =>
    obtain ⟨d, hd, hread⟩ := Scanner.scan_readAt (U := U) ((Scanner.start input).after U n)
    rw [Scanner.after_succ]
    exact ih.trans (hd.trans hread.follows)

/-! ## The lexer -/

theorem Stream.head_drop {s : Stream} {t : Token} {n : Nat} (h : s.tokens[n]? = some t) :
    (s.drop n).head = t := by
  rw [head, drop, List.headD_eq_head?_getD, List.head?_drop, h, Option.getD_some]

theorem Stream.head_drop_of_length_le {s : Stream} {n : Nat} (h : s.length ≤ n) :
    (s.drop n).head = bare .eof s.ending := by
  rw [head, drop, List.drop_of_length_le h]
  rfl

namespace Lexer

variable {pieces : List Piece} {n : Nat}

/-- The lexer after `n` advances. -/
def advanced (U : CharData) (pieces : List Piece) (n : Nat) : Lexer :=
  (advance U)^[n] (start U pieces)

theorem advanced_succ (pieces : List Piece) (n : Nat) :
    advanced U pieces (n + 1) = (advanced U pieces n).advance U :=
  Function.iterate_succ_apply' _ _ _

theorem advanced_eq (U : CharData) (pieces : List Piece) (n : Nat) :
    (advanced U pieces n).scanner = (Scanner.start pieces).after U (n + 1) ∧
      (advanced U pieces n).window.next = (((Scanner.start pieces).after U n).scan U).1 ∧
      (advanced U pieces n).memo.Sound U := by
  induction n with
  | zero =>
    obtain ⟨htoken, hscanner, hmemo⟩ :=
      Scanner.scanWith_eq (U := U) Memo.sound_empty (Scanner.start pieces)
    exact ⟨hscanner, htoken, hmemo⟩
  | succ n ih =>
    obtain ⟨hscanner, -, hmemo⟩ := ih
    obtain ⟨htoken, hnext, hmemo'⟩ := Scanner.scanWith_eq hmemo (advanced U pieces n).scanner
    rw [advanced_succ, Scanner.after_succ, ← hscanner]
    exact ⟨hnext, htoken, hmemo'⟩

theorem current_advanced (U : CharData) (pieces : List Piece) (n : Nat) :
    (advanced U pieces (n + 1)).window.current = (((Scanner.start pieces).after U n).scan U).1 := by
  rw [advanced_succ]
  exact (advanced_eq U pieces n).2.1

/-- A lexer gives the tokens of the stream one after the other. -/
theorem current_eq_head (U : CharData) (pieces : List Piece) (n : Nat) :
    (advanced U pieces (n + 1)).window.current = ((Stream.ofPieces U pieces).drop n).head :=
  (current_advanced U pieces n).trans (Scanner.head_drop_stream _ n).symm

end Lexer

end FirSyntax.Token
