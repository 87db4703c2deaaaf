import FirSyntax.Proofs.Token.Agreeing
import FirSyntax.Proofs.Token.Spans

/-!
# Breaks have no spelling

Two inputs that differ in a break alone are scanned side by side. Up to the break the tokens are the
same. There both scanners pass white space, or both are in a comment, whose text does not show the
white space at its end; inside a line both give the end of the line next, whatever the break is.
Behind the break the same pieces are left at the start of a line.
-/
namespace FirSyntax.Token

open Source Unicode

variable {U : CharData} {x : Piece} {front gap gap' back : List Piece} {l : Location}

/-- The kinds and the texts of tokens. -/
def spelling (ts : List Token) : List (Kind × String) := ts.map fun t => (t.kind, t.text)

theorem spelling_relocate (φ : Location → Location) (ts : List Token) :
    spelling (ts.map (Token.relocate φ)) = spelling ts := by
  rw [spelling, List.map_map]
  rfl

/-- White space at the end of a text does not show once the text is trimmed. -/
theorem trim_append {blanks : List Char} (cs : List Char) (h : ∀ c ∈ blanks, isBlank c = true) :
    trim (cs ++ blanks) = trim cs := by
  have hblanks : blanks.dropWhile isBlank = [] := List.dropWhile_eq_nil_iff.mpr h
  rw [trim, trim, List.dropWhile_append, hblanks]
  split
  · next hempty => rw [List.isEmpty_iff.mp hempty]
  · rw [trimEnd, List.reverse_append, List.dropWhile_append_of_pos, ← trimEnd]
    exact fun c hc => h c (List.mem_reverse.mp hc)

/-- The white space at the beginning of a break does not show at the end of a comment. -/
theorem trim_break (front : List Piece) {blanks rest : List Piece}
    (h : IsBreak (blanks ++ rest)) :
    trim ((front ++ blanks).map Piece.shown) = trim (front.map Piece.shown) := by
  rw [List.map_append]
  apply trim_append
  rw [List.forall_mem_map]
  intro y hy
  exact (isBlank_shown y []).trans (h.blank y (List.mem_append_left rest hy))

/-! ## In front of a break -/

theorem atDigit_break (h : IsBreak gap) (back : List Piece) : atDigit (gap ++ back) = false := by
  cases gap with
  | nil => exact absurd rfl h.terminated.ne_nil
  | cons x gap =>
    cases x with
    | invalid bytes => rfl
    | char c =>
      have hword := CharData.not_word_of_blank (h.atBlank (gap ++ back))
      simp only [Char.isAlphanum, Bool.or_eq_false_iff] at hword
      exact hword.1.2

theorem atWordPart_break (hU : U.BlanksApart) (h : IsBreak gap) (back : List Piece) :
    atWordPart U (gap ++ back) = false := by
  cases gap with
  | nil => exact absurd rfl h.terminated.ne_nil
  | cons x gap =>
    have hblank := h.atBlank (gap ++ back)
    cases x with
    | invalid bytes => cases hblank
    | char c => exact hU.continuesIdentifier hblank

theorem interrupts_break (hU : U.BlanksApart) (h : IsBreak gap) (back : List Piece) :
    Interrupts U (gap ++ back) :=
  ⟨atDigit_break h back, atWordPart_break hU h back⟩

/-! ## Scanners side by side -/

namespace Scanner

/-- The kinds and the texts of the tokens from a scanner on. -/
def spelled (U : CharData) (s : Scanner) : List (Kind × String) := spelling (s.stream U).tokens

theorem Scans.spelled {s s' : Scanner} {t : Token} (h : s.Scans U t s') (ht : t.kind ≠ .eof) :
    s.spelled U = (t.kind, t.text) :: s'.spelled U := by
  rw [Scanner.spelled, stream_of_token h.scan_eq ht]
  rfl

/-- The spelling does not tell the line of a scanner. -/
theorem spelled_line (rest : List Piece) (n m column : Nat) (layout : Layout) :
    spelled U ⟨⟨rest, ⟨n, column⟩⟩, layout⟩ = spelled U ⟨⟨rest, ⟨m, column⟩⟩, layout⟩ := by
  have hdown (k : Nat) : spelled U ⟨⟨rest, ⟨k, column⟩⟩, layout⟩ =
      spelled U ⟨⟨rest, ⟨0, column⟩⟩, layout⟩ := by
    have hstream := stream_down (U := U) k ⟨⟨rest, ⟨0, column⟩⟩, layout⟩
    rw [down, Cursor.down, Nat.zero_add] at hstream
    rw [spelled, hstream]
    exact spelling_relocate _ _
  rw [hdown n, hdown m]

/-- Where the next token is looked for, the spelling is the same. -/
theorem spelled_front {s s' : Scanner} (hfront : s.front = s'.front)
    (hlayout : s.layout = s'.layout) : s.spelled U = s'.spelled U := by
  rw [spelled, spelled, stream_of_front hfront hlayout]

/-- A break at the start of a line has no spelling. -/
theorem spelled_break_start (hgap : IsBreak gap) (hback : Separate back) (levels : List Nat)
    (l : Location) :
    spelled U ⟨⟨gap ++ back, l⟩, ⟨levels, true⟩⟩ =
      spelled U ⟨⟨back, Location.start⟩, ⟨levels, true⟩⟩ := by
  obtain ⟨n, hskip⟩ := Cursor.skip_break hgap hback l
  have hsame : spelled U ⟨⟨gap ++ back, l⟩, ⟨levels, true⟩⟩ =
      spelled U ⟨⟨back, ⟨n, 1⟩⟩, ⟨levels, true⟩⟩ :=
    spelled_front hskip rfl
  exact hsame.trans (spelled_line back n 1 1 _)

/-- A break inside a line is spelled as the end of the line. -/
theorem spelled_break_inside (hgap : IsBreak gap) (hback : Separate back) (levels : List Nat)
    (l : Location) :
    spelled U ⟨⟨gap ++ back, l⟩, ⟨levels, false⟩⟩ =
      (.newline, "") :: spelled U ⟨⟨back, Location.start⟩, ⟨levels, true⟩⟩ := by
  have hinner (ys : List Piece) (hys : atBlank ys = true) : atInnerBlank ys = !endsLine ys := by
    rw [atInnerBlank, hys, Bool.true_and]
  obtain ⟨blanks, y, rest, l', -, hrest, hends, hspan⟩ := Cursor.span_break hinner hgap hback l
  have hfront : front ⟨⟨gap ++ back, l⟩, ⟨levels, false⟩⟩ = ⟨y :: (rest ++ back), l'⟩ :=
    front_of_span hspan
  have hscans :=
    Scans.newline (U := U) (s := ⟨⟨gap ++ back, l⟩, ⟨levels, false⟩⟩) rfl (by rwa [hfront])
  rw [hscans.spelled (by simp [bare]), hfront]
  have hstep : (Cursor.mk (y :: (rest ++ back)) l').step = ⟨rest ++ back, l'.nextLine⟩ := by
    rw [Cursor.step, Source.after, if_pos hends]
  rw [hstep]
  congr 1
  rcases hrest with rfl | hrest
  · exact spelled_line back _ 1 1 _
  · exact spelled_break_start hrest hback levels _

/-- Scanners of two inputs that differ in a break: either both are in front of it, at one place, or
both are in it and inside a line. -/
inductive Beside (gap gap' back : List Piece) : Scanner → Scanner → Prop
  | before {front l layout} : Agrees endsLine front (gap ++ back) (gap' ++ back) →
      Beside gap gap' back ⟨⟨front ++ (gap ++ back), l⟩, layout⟩
        ⟨⟨front ++ (gap' ++ back), l⟩, layout⟩
  | within {left left' l l' levels} : IsBreak left → IsBreak left' →
      Beside gap gap' back ⟨⟨left ++ back, l⟩, ⟨levels, false⟩⟩
        ⟨⟨left' ++ back, l'⟩, ⟨levels, false⟩⟩

section

variable (hgap : IsBreak gap) (hgap' : IsBreak gap') (hback : Separate back)

include hgap hgap' hback in
/-- The rest of a line that does not end in front of the break ends in it. -/
theorem body_beside (hends : Agrees endsLine front (gap ++ back) (gap' ++ back)) (l : Location)
    (levels : List Nat) :
    ∃ body body' c c',
      (⟨front ++ (gap ++ back), l⟩ : Cursor).span (fun ys => !endsLine ys) = (body, c) ∧
      (⟨front ++ (gap' ++ back), l⟩ : Cursor).span (fun ys => !endsLine ys) = (body', c') ∧
      trim (body.map Piece.shown) = trim (body'.map Piece.shown) ∧
      Beside gap gap' back ⟨c, ⟨levels, false⟩⟩ ⟨c', ⟨levels, false⟩⟩ := by
  rcases Cursor.span_agrees hends.not_endsLine hends l with
    ⟨body, y, rest, l', hsplit, hspan, hspan'⟩ | ⟨l', hspan, hspan'⟩
  · have hsuffix : y :: rest <:+ front := ⟨body, hsplit.symm⟩
    exact ⟨body, body, _, _, hspan, hspan', rfl, .before (hends.of_suffix hsuffix)⟩
  · obtain ⟨blanks, y, rest, m, hsplit, -, -, hbreak⟩ :=
      Cursor.span_break (p := fun ys => !endsLine ys) (fun _ _ => rfl) hgap hback l'
    obtain ⟨blanks', y', rest', m', hsplit', -, -, hbreak'⟩ :=
      Cursor.span_break (p := fun ys => !endsLine ys) (fun _ _ => rfl) hgap' hback l'
    rw [hbreak] at hspan
    rw [hbreak'] at hspan'
    have htext := trim_break front (hsplit ▸ hgap)
    have htext' := trim_break front (hsplit' ▸ hgap')
    have hleft : IsBreak (y :: rest) := (hsplit ▸ hgap).of_append (List.cons_ne_nil _ _)
    have hleft' : IsBreak (y' :: rest') := (hsplit' ▸ hgap').of_append (List.cons_ne_nil _ _)
    exact ⟨_, _, _, _, hspan, hspan', htext.trans htext'.symm, .within hleft hleft'⟩

include hgap hgap' hback in
/-- A comment that is not ended in front of the break is ended in it, with the same text. -/
theorem comment_beside (hends : Agrees endsLine (x :: front) (gap ++ back) (gap' ++ back))
    (l : Location) (levels : List Nat) :
    LexemesAgree (Beside gap gap' back) levels (comment ⟨x :: (front ++ (gap ++ back)), l⟩)
      (comment ⟨x :: (front ++ (gap' ++ back)), l⟩) := by
  obtain ⟨body, body', c, c', hspan, hspan', htext, hbeside⟩ :=
    body_beside hgap hgap' hback hends.tail (Source.after l (x :: (front ++ (gap ++ back)))) levels
  rw [← hends.after] at hspan'
  rw [comment_eq (c := ⟨x :: (front ++ (gap ++ back)), l⟩) hspan,
    comment_eq (c := ⟨x :: (front ++ (gap' ++ back)), l⟩) hspan', htext]
  exact ⟨rfl, hbeside⟩

variable (hU : U.BlanksApart)

include hgap hgap' hback hU in
/-- Whatever the break is, the tokens are spelled alike. -/
theorem Beside.spelled {s s' : Scanner} (h : Beside gap gap' back s s') :
    s.spelled U = s'.spelled U := by
  cases h with
  | within hleft hleft' =>
    rw [spelled_break_inside hleft hback, spelled_break_inside hleft' hback]
  | @before front l layout hends =>
    rcases front_agree layout hends l with
      ⟨x, rest, l', hsuffix, hfront, hfront'⟩ | ⟨l', hfront, hfront'⟩
    · have hscans := scan_scans U ⟨⟨front ++ (gap ++ back), l⟩, layout⟩
      have hne := hscans.ne_eof (by simp [hfront])
      have hlt := weight_scan U hne
      have hleft := hends.of_suffix hsuffix
      have hlexeme := lexeme_agree (l := l') Beside.before (interrupts_break hU hgap back)
        (interrupts_break hU hgap' back) layout.levels hleft
        (comment_beside hgap hgap' hback hleft l' layout.levels)
      obtain ⟨u', hscans', hbeside⟩ :=
        scan_agree Beside.before hleft hfront hfront' rfl hlexeme hscans
      rw [hscans.spelled hne, hscans'.spelled hne, Beside.spelled hbeside]
    · rw [spelled_front hfront rfl, spelled_front hfront' rfl]
      obtain ⟨levels, lineStart⟩ := layout
      cases lineStart with
      | true => rw [spelled_break_start hgap hback, spelled_break_start hgap' hback]
      | false => rw [spelled_break_inside hgap hback, spelled_break_inside hgap' hback]
termination_by s.weight

end

end Scanner

namespace Stream

/-- A break does not bear on how the tokens of an input are spelled. -/
theorem spelling_break (hU : U.BlanksApart) (hgap : IsBreak gap) (hgap' : IsBreak gap')
    (front back : List Piece) :
    spelling (ofPieces U (front ++ (gap ++ back))).tokens =
      spelling (ofPieces U (front ++ (gap' ++ back))).tokens := by
  -- The halves of a CR LF on either side are taken into the break.
  obtain ⟨init, returns, rfl, hreturns, hlast⟩ := exists_without_return front
  obtain ⟨lines, rest, rfl, hlines, hrest⟩ := exists_separate back
  have hbreak (gap : List Piece) (h : IsBreak gap) : IsBreak (returns ++ (gap ++ lines)) :=
    .append hreturns (h.append_newlines hlines)
  have hbeside : Scanner.Beside (returns ++ (gap ++ lines)) (returns ++ (gap' ++ lines)) rest
      (Scanner.start (init ++ (returns ++ (gap ++ lines) ++ rest)))
      (Scanner.start (init ++ (returns ++ (gap' ++ lines) ++ rest))) := .before (.endsLine hlast)
  have hspelled := hbeside.spelled (hbreak gap hgap) (hbreak gap' hgap') hrest hU
  simp only [List.append_assoc] at hspelled ⊢
  exact hspelled

/-- A break in front of an input does not bear on how its tokens are spelled. -/
theorem spelling_break_start (hgap : IsBreak gap) (back : List Piece) :
    spelling (ofPieces U (gap ++ back)).tokens = spelling (ofPieces U back).tokens := by
  obtain ⟨lines, rest, rfl, hlines, hrest⟩ := exists_separate back
  have hwhole : spelling (ofPieces U (gap ++ (lines ++ rest))).tokens =
      spelling (ofPieces U rest).tokens := by
    rw [← List.append_assoc]
    exact Scanner.spelled_break_start (hgap.append_newlines hlines) hrest [] Location.start
  by_cases hne : lines = []
  · rw [hwhole, hne, List.nil_append]
  · rw [hwhole]
    exact (Scanner.spelled_break_start (.isBreak_newlines hne hlines) hrest [] Location.start).symm

end Stream

end FirSyntax.Token
