import FirSyntax.Proofs.Source.Breaks
import FirSyntax.Proofs.Token.Joining
import FirSyntax.Proofs.Token.Scans

/-!
# Scanning in front of two parts

Two inputs that differ behind a common front are scanned alike as long as something of the front is
left that is not white space. Integers and words end with the front when neither part goes on with
them; where a comment ends is left to the parts.
-/
namespace FirSyntax.Token

open Source Unicode

variable {U : CharData} {x : Piece} {front back back' : List Piece} {l : Location}
  {R : Scanner → Scanner → Prop}

/-- Neither an integer nor a word goes on with the part `back`. -/
structure Interrupts (U : CharData) (back : List Piece) : Prop where
  digit : atDigit back = false
  word : atWordPart U back = false

namespace Scanner

/-- Scanners at one place in front of the two parts are related. -/
def HoldsBefore (back back' : List Piece) (R : Scanner → Scanner → Prop) : Prop :=
  ∀ {front l layout}, Agrees endsLine front back back' →
    R ⟨⟨front ++ back, l⟩, layout⟩ ⟨⟨front ++ back', l⟩, layout⟩

section

variable (hR : HoldsBefore back back' R)

include hR in
/-- Past one piece of the front. -/
theorem step_agree (hends : Agrees endsLine (x :: front) back back') (l : Location)
    (layout : Layout) :
    R ⟨(Cursor.mk (x :: (front ++ back)) l).step, layout⟩
      ⟨(Cursor.mk (x :: (front ++ back')) l).step, layout⟩ := by
  rw [Cursor.step, Cursor.step, hends.after]
  exact hR hends.tail

include hR in
/-- A run that neither part goes on with is the same in front of both. -/
theorem run_agree {p : List Piece → Bool} (hp : ∀ back, Local p back) (hstop : p back = false)
    (hstop' : p back' = false) (hends : Agrees endsLine (x :: front) back back') (l : Location)
    (layout : Layout) :
    ∃ run c c', (Cursor.mk (x :: (front ++ back)) l).step.span p = (run, c) ∧
      (Cursor.mk (x :: (front ++ back')) l).step.span p = (run, c') ∧
      R ⟨c, layout⟩ ⟨c', layout⟩ := by
  have hagrees : Agrees p front back back' := .of_local (hp _) (hp _)
  rw [Cursor.step, Cursor.step, hends.after]
  obtain ⟨run, rest, l', hsplit, hspan, hspan'⟩ := Cursor.span_agrees_of_stop hagrees hends.tail
    hstop hstop' (Source.after l (x :: (front ++ back)))
  have hsuffix : rest <:+ front := ⟨run, hsplit.symm⟩
  exact ⟨run, _, _, hspan, hspan', hR (hends.tail.of_suffix hsuffix)⟩

theorem beginsInteger_agree (h : Interrupts U back) (h' : Interrupts U back') (c : Char)
    (front : List Piece) : beginsInteger c (front ++ back') = beginsInteger c (front ++ back) := by
  cases front with
  | nil => rw [beginsInteger, beginsInteger, List.nil_append, List.nil_append, h.digit, h'.digit]
  | cons x front => rfl

/-- The token in front of two parts is the same, and the scanners behind it are related. -/
def LexemesAgree (R : Scanner → Scanner → Prop) (levels : List Nat)
    (next next' : Token × Cursor) : Prop :=
  next.1 = next'.1 ∧ R ⟨next.2, ⟨levels, false⟩⟩ ⟨next'.2, ⟨levels, false⟩⟩

include hR in
/-- What is not white space is scanned alike in front of both parts, given that a comment is. -/
theorem lexeme_agree (h : Interrupts U back) (h' : Interrupts U back') (levels : List Nat)
    (hends : Agrees endsLine (x :: front) back back')
    (hcomment : LexemesAgree R levels (comment ⟨x :: (front ++ back), l⟩)
      (comment ⟨x :: (front ++ back'), l⟩)) :
    LexemesAgree R levels (lexeme U x ⟨x :: (front ++ back), l⟩)
      (lexeme U x ⟨x :: (front ++ back'), l⟩) := by
  have hone := step_agree hR hends l ⟨levels, false⟩
  cases x with
  | invalid bytes => exact ⟨rfl, hone⟩
  | char c =>
    have hinteger : beginsInteger c (Cursor.mk (.char c :: (front ++ back')) l).step.rest =
        beginsInteger c (Cursor.mk (.char c :: (front ++ back)) l).step.rest :=
      beginsInteger_agree h h' c front
    simp only [lexeme, hinteger]
    split
    · obtain ⟨digits, d, d', hspan, hspan', hrelated⟩ :=
        run_agree hR local_atDigit h.digit h'.digit hends l ⟨levels, false⟩
      simp only [LexemesAgree, integer, hspan, hspan']
      exact ⟨trivial, hrelated⟩
    · split
      · exact hcomment
      · split
        · obtain ⟨run, d, d', hspan, hspan', hrelated⟩ :=
            run_agree hR (local_atWordPart U) h.word h'.word hends l ⟨levels, false⟩
          simp only [LexemesAgree, word, hspan, hspan']
          exact ⟨trivial, hrelated⟩
        · exact ⟨rfl, hone⟩

include hR in
/-- Where something else than white space is left of the front, both scanners give the same token,
given that they do so for a lexeme. -/
theorem scan_agree {s s' : Scanner} {t : Token} {u : Scanner}
    (hends : Agrees endsLine (x :: front) back back')
    (hfront : s.front = ⟨x :: (front ++ back), l⟩)
    (hfront' : s'.front = ⟨x :: (front ++ back'), l⟩) (hlayout : s.layout = s'.layout)
    (hlexeme : LexemesAgree R s.layout.levels (lexeme U x ⟨x :: (front ++ back), l⟩)
      (lexeme U x ⟨x :: (front ++ back'), l⟩))
    (h : s.Scans U t u) :
    ∃ u', s'.Scans U t u' ∧ R u u' := by
  have hlocation : s.front.location = s'.front.location := by rw [hfront, hfront']
  have hrest' : s'.front.rest = x :: (front ++ back') := by rw [hfront']
  cases h with
  | ending hnil =>
    rw [hfront] at hnil
    cases hnil
  | closing hnil =>
    rw [hfront] at hnil
    cases hnil
  | @shift _ m hstart _ hshift =>
    rw [hlayout] at hstart hshift
    rw [hlocation] at hshift ⊢
    refine ⟨⟨s'.front, m⟩, .shift hstart (by simp [hrest']) hshift, ?_⟩
    rw [hfront, hfront']
    exact hR hends
  | newline hstart hline =>
    rw [hlayout] at hstart ⊢
    rw [hfront] at hline
    rw [hlocation]
    refine ⟨_, .newline hstart (by rw [hrest', ← hends.head, hline]), ?_⟩
    rw [hfront, hfront']
    exact step_agree hR hends l _
  | lexeme hrest hblank hshift =>
    rw [hfront] at hrest hblank
    obtain ⟨rfl, -⟩ := List.cons.inj hrest
    obtain ⟨htoken, hrelated⟩ := hlexeme
    have hscans : s'.Scans U (lexeme U x s'.front).1
        ⟨(lexeme U x s'.front).2, s'.layout.settled⟩ := by
      refine .lexeme hrest' ?_ ?_
      · rw [hrest']
        exact hblank
      · rw [← hlayout, ← hlocation]
        exact hshift
    rw [hfront'] at hscans
    rw [hfront, htoken]
    refine ⟨_, hscans, ?_⟩
    rw [← hlayout]
    exact hrelated

end

/-- White space in front of two parts is passed alike. -/
theorem agrees_space (lineStart : Bool) (hends : Agrees endsLine front back back') :
    Agrees (spaceTest lineStart) front back back' := by
  cases lineStart with
  | true => exact .of_local (local_atBlank _) (local_atBlank _)
  | false => exact hends.atInnerBlank

/-- Either something of the front is left that is not white space, at one place of both inputs, or both
scanners look for the next token behind the front. -/
theorem front_agree (layout : Layout) (hends : Agrees endsLine front back back') (l : Location) :
    (∃ x rest l', x :: rest <:+ front ∧
      Scanner.front ⟨⟨front ++ back, l⟩, layout⟩ = ⟨x :: (rest ++ back), l'⟩ ∧
      Scanner.front ⟨⟨front ++ back', l⟩, layout⟩ = ⟨x :: (rest ++ back'), l'⟩) ∨
    ∃ l', Scanner.front ⟨⟨front ++ back, l⟩, layout⟩ = Scanner.front ⟨⟨back, l'⟩, layout⟩ ∧
      Scanner.front ⟨⟨front ++ back', l⟩, layout⟩ = Scanner.front ⟨⟨back', l'⟩, layout⟩ := by
  rcases Cursor.span_agrees (agrees_space layout.atLineStart hends) hends l with
    ⟨run, x, rest, l', hsplit, hspan, hspan'⟩ | ⟨l', hspan, hspan'⟩
  · exact .inl ⟨x, rest, l', ⟨run, hsplit.symm⟩, front_of_span hspan, front_of_span hspan'⟩
  · exact .inr ⟨l', front_of_span hspan, front_of_span hspan'⟩

end Scanner

end FirSyntax.Token
