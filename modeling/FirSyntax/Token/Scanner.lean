import FirSyntax.Token.Layout
import FirSyntax.Token.Lexeme

/-!
# The scanner

A scanner stands in the input and knows the open levels. Each scan gives one token; the end of the
input first closes the levels that are open and then gives the end of the file again and again.
The weight of a scanner bounds the tokens before that.
-/
namespace FirSyntax.Token

open Source Unicode

structure Scanner where
  cursor : Cursor
  layout : Layout
deriving DecidableEq, Repr

namespace Scanner

/-- The scanner in front of a source file. -/
def start (pieces : List Piece) : Scanner := ⟨Cursor.start pieces, Layout.start⟩

variable (U : CharData)

/-- The next token of a line whose level is settled, or of the end of the input. -/
def content (s : Scanner) : Token × Scanner :=
  let c := s.cursor.skip atInnerBlank
  match c.rest with
  | [] =>
    match s.layout.levels with
    | _ :: outer => (bare .unindent c.location, ⟨c, { s.layout with levels := outer }⟩)
    | [] => (bare .eof c.location, ⟨c, s.layout⟩)
  | first :: _ =>
    if endsLine c.rest then
      (bare .newline c.location, ⟨c.step, { s.layout with atLineStart := true }⟩)
    else ((lexeme U first c).1, ⟨(lexeme U first c).2, s.layout⟩)

/-- The next token. Lines of white space alone have no indentation. -/
def scan (s : Scanner) : Token × Scanner :=
  if s.layout.atLineStart then
    let c := s.cursor.skip atBlank
    match c.rest with
    | [] => content U ⟨c, s.layout⟩
    | _ :: _ =>
      match s.layout.shift? (c.location.column - 1) with
      | some (kind, layout) => (bare kind c.location, ⟨c, layout⟩)
      | none => content U ⟨c, s.layout.settled⟩
  else content U s

/-- The scanner once the level of its line is settled, unless that takes a token of layout. -/
def settled? (s : Scanner) : Option Scanner :=
  if s.layout.atLineStart then
    let c := s.cursor.skip atBlank
    match c.rest with
    | [] => some ⟨c, s.layout⟩
    | _ :: _ =>
      match s.layout.shift? (c.location.column - 1) with
      | some _ => none
      | none => some ⟨c, s.layout.settled⟩
  else some s

/-- The pieces of the word that is the next token, its location and the scanner after it. -/
def run? (s : Scanner) : Option (List Piece × Location × Scanner) :=
  match s.settled? with
  | none => none
  | some t =>
    let c := t.cursor.skip atInnerBlank
    match c.rest with
    | .char first :: _ =>
      if !endsLine c.rest && U.beginsIdentifier first then
        let run := c.step.span (atWordPart U)
        some (.char first :: run.1, c.location, ⟨run.2, t.layout⟩)
      else none
    | _ => none

/-- The next token, where words met before are not normalized again. -/
def scanWith (m : Memo) (s : Scanner) : Token × Memo × Scanner :=
  match s.run? U with
  | some (run, location, after) =>
    let word := m.ofRun U run location
    (word.1, word.2, after)
  | none => ((s.scan U).1, m, (s.scan U).2)

/-- A bound on the tokens before the end of the file. -/
def weight (s : Scanner) : Nat := 3 * s.cursor.rest.length + s.layout.weight

theorem weight_content {s : Scanner} (h : (content U s).1.kind ≠ .eof) :
    (content U s).2.weight < s.weight := by
  have hskip := Cursor.length_skip_le atInnerBlank s.cursor
  have hstep := Cursor.length_step (s.cursor.skip atInnerBlank)
  unfold content at h ⊢
  simp only at h ⊢
  split
  · next hr =>
    split
    · next hl =>
      simp only [weight, Layout.weight, hr, hl, List.length_cons, List.length_nil]
      omega
    · next hl => simp [hr, hl, bare] at h
  · next first rest hr =>
    have hlen : (s.cursor.skip atInnerBlank).rest.length = rest.length + 1 := by simp [hr]
    split
    · simp only [weight, Layout.weight, if_true]
      split <;> omega
    · have hle := length_lexeme_le U first (s.cursor.skip atInnerBlank)
      simp only [weight]
      omega

theorem weight_scan {s : Scanner} (h : (scan U s).1.kind ≠ .eof) :
    (scan U s).2.weight < s.weight := by
  have hskip := Cursor.length_skip_le atBlank s.cursor
  have hsettled : s.layout.settled.weight ≤ s.layout.weight := by
    simp [Layout.settled, Layout.weight]
  unfold scan at h ⊢
  simp only at h ⊢
  split
  · next hstart =>
    simp only [hstart, if_true] at h
    split
    · next hr =>
      simp only [hr] at h
      have := weight_content U h
      simp only [weight] at this ⊢
      omega
    · next hr =>
      simp only [hr] at h
      split
      · next hs =>
        have := Layout.weight_shift hstart hs
        simp only [weight]
        omega
      · next hs =>
        simp only [hs] at h
        have := weight_content U h
        simp only [weight] at this ⊢
        omega
  · next hstart =>
    simp only [hstart] at h
    exact weight_content U h

end Scanner

end FirSyntax.Token
