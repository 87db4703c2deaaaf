import FirSyntax.Proofs.Token.ScannerLevels
import FirSyntax.Proofs.Tree.Relocation

/-!
# Tokens further down

The tokens of a text that stands further down in its file are those of the text on its own, moved down.
No token stands above the line in which scanning begins.
-/
namespace FirSyntax.Token

open Source Unicode

variable {U : CharData}

/-- The place `n` lines below a place in the text. -/
def below (n : Nat) (l : Location) : Location := ⟨l.line + n, l.column⟩

theorem lexeme_down (n : Nat) (first : Piece) (c : Cursor) :
    lexeme U first (c.down n) =
      ((lexeme U first c).1.relocate (below n), (lexeme U first c).2.down n) := by
  have hrest (c : Cursor) : (c.down n).rest = c.rest := rfl
  unfold lexeme integer comment word
  simp only [Cursor.step_down, Cursor.span_down, Cursor.skip_down, hrest]
  split
  · rfl
  · split
    · rfl
    · split
      · rfl
      · split
        · simp only [ofRun]
          split
          · rfl
          · split <;> rfl
        · rfl

namespace Scanner

/-- The same scanner with its text `n` lines further down. -/
def down (n : Nat) (s : Scanner) : Scanner := ⟨s.cursor.down n, s.layout⟩

theorem content_down (n : Nat) (s : Scanner) :
    content U (s.down n) = ((content U s).1.relocate (below n), (content U s).2.down n) := by
  unfold content
  simp only [down, Cursor.skip_down]
  have hrest : ((s.cursor.skip atInnerBlank).down n).rest = (s.cursor.skip atInnerBlank).rest := rfl
  rw [hrest]
  generalize s.cursor.skip atInnerBlank = c
  cases c.rest with
  | nil => cases s.layout.levels <;> rfl
  | cons first rest =>
    simp only
    split
    · rw [Cursor.step_down]
      rfl
    · rw [lexeme_down]

theorem scan_down (n : Nat) (s : Scanner) :
    scan U (s.down n) = ((scan U s).1.relocate (below n), (scan U s).2.down n) := by
  unfold scan
  have hlayout : (s.down n).layout = s.layout := rfl
  have hskip : (s.down n).cursor.skip atBlank = (s.cursor.skip atBlank).down n :=
    Cursor.skip_down n atBlank s.cursor
  rw [hlayout, hskip]
  split
  · have hrest : ((s.cursor.skip atBlank).down n).rest = (s.cursor.skip atBlank).rest := rfl
    have hcolumn : ((s.cursor.skip atBlank).down n).location.column =
      (s.cursor.skip atBlank).location.column := rfl
    simp only [hrest, hcolumn]
    split
    · exact content_down n ⟨s.cursor.skip atBlank, s.layout⟩
    · split
      · rfl
      · exact content_down n ⟨s.cursor.skip atBlank, s.layout.settled⟩
  · exact content_down n s

theorem stream_down (n : Nat) (s : Scanner) :
    (s.down n).stream U =
      ⟨(s.stream U).tokens.map (Token.relocate (below n)), below n (s.stream U).ending⟩ := by
  have hscan := scan_down (U := U) n s
  by_cases h : (s.scan U).1.kind = .eof
  · rw [stream_of_eof hscan h, stream_of_eof (s := s) rfl h]
    rfl
  · have hlt := weight_scan U h
    rw [stream_of_token hscan h, stream_of_token (s := s) rfl h, stream_down]
    rfl
termination_by s.weight

theorem line_lexeme_le (first : Piece) (c : Cursor) :
    (lexeme U first c).1.location = c.location ∧
      c.location.line ≤ (lexeme U first c).2.location.line := by
  have hstep := Cursor.line_step_le c
  unfold lexeme
  split
  · exact ⟨rfl, hstep⟩
  · split
    · exact ⟨rfl, Nat.le_trans hstep (Cursor.line_span_le _ _)⟩
    · split
      · exact ⟨rfl, Nat.le_trans (Nat.le_trans hstep (Cursor.line_skip_le _ _)) (Cursor.line_span_le _ _)⟩
      · split
        · refine ⟨?_, Nat.le_trans hstep (Cursor.line_span_le _ _)⟩
          simp only [word, ofRun]
          split
          · rfl
          · split <;> rfl
        · exact ⟨rfl, hstep⟩

theorem line_content_le (s : Scanner) :
    s.cursor.location.line ≤ (content U s).1.location.line ∧
      s.cursor.location.line ≤ (content U s).2.cursor.location.line := by
  have hskip := Cursor.line_skip_le atInnerBlank s.cursor
  unfold content
  generalize s.cursor.skip atInnerBlank = c at hskip
  simp only
  split
  · split <;> exact ⟨hskip, hskip⟩
  · next first rest hrest =>
    split
    · exact ⟨hskip, Nat.le_trans hskip (Cursor.line_step_le c)⟩
    · obtain ⟨hlocation, hline⟩ := line_lexeme_le (U := U) first c
      exact ⟨hlocation ▸ hskip, Nat.le_trans hskip hline⟩

/-- A scanner goes down the text. -/
theorem line_scan_le (s : Scanner) :
    s.cursor.location.line ≤ (scan U s).1.location.line ∧
      s.cursor.location.line ≤ (scan U s).2.cursor.location.line := by
  have hskip := Cursor.line_skip_le atBlank s.cursor
  unfold scan
  split
  · simp only
    split
    · have h := line_content_le (U := U) ⟨s.cursor.skip atBlank, s.layout⟩
      exact ⟨Nat.le_trans hskip h.1, Nat.le_trans hskip h.2⟩
    · split
      · exact ⟨hskip, hskip⟩
      · have h := line_content_le (U := U) ⟨s.cursor.skip atBlank, s.layout.settled⟩
        exact ⟨Nat.le_trans hskip h.1, Nat.le_trans hskip h.2⟩
  · exact line_content_le s

theorem line_stream_le (s : Scanner) :
    (∀ t ∈ (s.stream U).tokens, s.cursor.location.line ≤ t.location.line) ∧
      s.cursor.location.line ≤ (s.stream U).ending.line := by
  obtain ⟨htoken, hnext⟩ := line_scan_le (U := U) s
  by_cases h : (s.scan U).1.kind = .eof
  · rw [stream_of_eof (s := s) rfl h]
    exact ⟨by simp, htoken⟩
  · have hlt := weight_scan U h
    obtain ⟨htokens, hending⟩ := line_stream_le (s.scan U).2
    rw [stream_of_token (s := s) rfl h]
    refine ⟨?_, Nat.le_trans hnext hending⟩
    rw [List.forall_mem_cons]
    exact ⟨htoken, fun t ht => Nat.le_trans hnext (htokens t ht)⟩
termination_by s.weight

/-- Further down in the text the tokens of a file are its own, moved down. -/
theorem stream_start_down (n : Nat) (pieces : List Piece) :
    stream U ⟨⟨pieces, ⟨n + 1, 1⟩⟩, Layout.start⟩ =
      ⟨(Stream.ofPieces U pieces).tokens.map (Token.relocate (Location.down n)),
        (Stream.ofPieces U pieces).ending.down n⟩ := by
  have hdown := stream_down (U := U) n (Scanner.start pieces)
  obtain ⟨htokens, hending⟩ := line_stream_le (U := U) (Scanner.start pieces)
  have hstart : (Scanner.start pieces).down n = ⟨⟨pieces, ⟨n + 1, 1⟩⟩, Layout.start⟩ := by
    simp [Scanner.start, down, Cursor.down, Cursor.start, Location.start, Nat.add_comm]
  rw [← hstart, hdown]
  have hbelow {l : Location} (h : 1 ≤ l.line) : below n l = l.down n :=
    (Location.down_of_pos h).symm
  congr 1
  · apply List.map_congr_left
    intro t ht
    rw [Token.relocate, Token.relocate, hbelow (htokens t ht)]
  · exact hbelow hending

end Scanner

end FirSyntax.Token
