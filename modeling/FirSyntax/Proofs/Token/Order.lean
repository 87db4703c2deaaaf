import FirSyntax.Proofs.Source.Order
import FirSyntax.Proofs.Token.ScannerLevels

/-!
# The order of tokens

Every token is read at a place of the input that no earlier token was read behind. A token inside a
line and the end of a line take a piece at least, so the next token stands at a later location; the
other tokens of layout take nothing and share their location with the token after them.
-/
namespace FirSyntax.Token

open Source Unicode

variable {U : CharData} {c d : Cursor} {t : Token}

/-- How a token is read at a place, and where the cursor is after it. -/
inductive ReadAt (U : CharData) (d : Cursor) : Token → Cursor → Prop
  | layout {k : Kind} : k.isLayout = true → k ≠ .newline → ReadAt U d (bare k d.location) d
  | newline : endsLine d.rest = true → ReadAt U d (bare .newline d.location) d.step
  | lexeme {first : Piece} {rest : List Piece} : d.rest = first :: rest → endsLine d.rest = false →
      ReadAt U d (lexeme U first d).1 (lexeme U first d).2

/-- What takes up a place of its own in the input. -/
def Kind.takesPlace (k : Kind) : Bool := !k.isLayout || k == .newline

/-- The token `t` stands before `u`. -/
def Before (t u : Token) : Prop :=
  t.location ≤ u.location ∧ (t.kind.takesPlace = true → t.location < u.location)

theorem location_lexeme (U : CharData) (first : Piece) (c : Cursor) :
    (lexeme U first c).1.location = c.location := by
  unfold lexeme
  split
  · rfl
  · split
    · rfl
    · split
      · rfl
      · split
        · simp only [word, ofRun]
          split
          · rfl
          · split <;> rfl
        · rfl

theorem follows_lexeme (U : CharData) (first : Piece) (c : Cursor) :
    c.step.Follows (lexeme U first c).2 := by
  unfold lexeme
  split
  · exact .refl _
  · split
    · exact .span _ _
    · split
      · exact (Cursor.Follows.skip _ _).trans (.span _ _)
      · split
        · exact .span _ _
        · exact .refl _

namespace ReadAt

theorem location (h : ReadAt U d t c) : t.location = d.location := by
  cases h with
  | layout | newline => rfl
  | lexeme => exact location_lexeme U _ _

theorem follows (h : ReadAt U d t c) : d.Follows c := by
  cases h with
  | layout => exact .refl _
  | newline => exact .step _
  | lexeme => exact (Cursor.Follows.step _).trans (follows_lexeme U _ _)

theorem lt (h : ReadAt U d t c) (ht : t.kind.takesPlace = true) : d.location < c.location := by
  cases h with
  | layout hlayout hne => simp [Kind.takesPlace, bare, hlayout, hne] at ht
  | newline hends =>
    refine Cursor.location_step fun hnil => ?_
    simp [hnil, endsLine] at hends
  | lexeme hrest =>
    exact lt_of_lt_of_le (Cursor.location_step (by simp [hrest]))
      (follows_lexeme U _ _).location_le

end ReadAt

namespace Scanner

variable {s : Scanner}

theorem content_readAt (s : Scanner) :
    ∃ d, s.cursor.Follows d ∧ ReadAt U d (s.content U).1 (s.content U).2.cursor := by
  refine ⟨s.cursor.skip atInnerBlank, .skip _ _, ?_⟩
  unfold content
  simp only
  split
  · split
    · exact .layout rfl (by simp)
    · exact .layout rfl (by simp)
  · next first rest hrest =>
    split
    · next hends => exact .newline hends
    · next hends => exact .lexeme hrest (by simpa using hends)

theorem scan_readAt (s : Scanner) :
    ∃ d, s.cursor.Follows d ∧ ReadAt U d (s.scan U).1 (s.scan U).2.cursor := by
  have hskip : s.cursor.Follows (s.cursor.skip atBlank) := .skip _ _
  have hcontent (layout : Layout) :
      ∃ d, s.cursor.Follows d ∧ ReadAt U d (content U ⟨s.cursor.skip atBlank, layout⟩).1
        (content U ⟨s.cursor.skip atBlank, layout⟩).2.cursor := by
    obtain ⟨d, hd, hread⟩ := content_readAt (U := U) ⟨s.cursor.skip atBlank, layout⟩
    exact ⟨d, hskip.trans hd, hread⟩
  unfold scan
  split
  · dsimp only
    split
    · exact hcontent _
    · split
      · next hshift =>
        refine ⟨s.cursor.skip atBlank, hskip, ?_⟩
        rcases Layout.kind_of_shift hshift with rfl | rfl | rfl
        all_goals exact .layout rfl (by simp)
      · exact hcontent _
  · exact content_readAt s

/-- Of the tokens of a scanner, and the end of the file behind them, each stands before the ones
after it. -/
theorem stream_ordered (s : Scanner) :
    ((s.stream U).tokens ++ [bare .eof (s.stream U).ending]).Pairwise Before ∧
      ∀ t ∈ (s.stream U).tokens ++ [bare .eof (s.stream U).ending],
        s.cursor.location ≤ t.location := by
  obtain ⟨d, hd, hread⟩ := scan_readAt (U := U) s
  have hle : s.cursor.location ≤ (s.scan U).1.location := by
    rw [hread.location]
    exact hd.location_le
  by_cases heof : (s.scan U).1.kind = .eof
  · rw [stream_of_eof rfl heof, List.nil_append, List.forall_mem_singleton]
    exact ⟨List.pairwise_singleton _ _, hle⟩
  · have hlt := weight_scan U heof
    obtain ⟨hpairwise, hfrom⟩ := stream_ordered (s.scan U).2
    rw [stream_of_token rfl heof]
    have hnext (u : Token) (hu : (s.scan U).2.cursor.location ≤ u.location) :
        Before (s.scan U).1 u := by
      rw [Before, hread.location]
      exact ⟨le_trans hread.follows.location_le hu, fun ht => lt_of_lt_of_le (hread.lt ht) hu⟩
    rw [List.cons_append, List.pairwise_cons, List.forall_mem_cons]
    refine ⟨⟨fun u hu => hnext u (hfrom u hu), hpairwise⟩, hle, fun u hu => ?_⟩
    exact le_trans hle (hnext u (hfrom u hu)).1
termination_by s.weight

end Scanner

end FirSyntax.Token
