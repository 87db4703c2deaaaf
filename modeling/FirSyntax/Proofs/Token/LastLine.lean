import FirSyntax.Proofs.Token.Agreeing
import FirSyntax.Proofs.Token.Order

/-!
# The end of the last line

An input whose last line is not ended and the same input with a line feed behind it have the same
tokens up to their end. There the levels are closed at once in the one. In the other the line feed is a
token when anything but white space stands in the last line, and the levels are closed on the line below.
-/
namespace FirSyntax

namespace Source

/-- The line feed at the end of an input. -/
def lineFeed : List Piece := [.char '\n']

variable {l : Location} {c : Cursor}

theorem le_past (l : Location) (rest : List Piece) : l ≤ past l rest := by
  induction rest generalizing l with
  | nil => exact le_rfl
  | cons x rest ih => exact le_trans (le_of_lt (lt_after l _)) (ih _)

/-- In front of a piece the end of the input is ahead. -/
theorem Cursor.location_lt_finish (h : c.rest ≠ []) : c.location < c.finish := by
  rw [← finish_step c]
  exact lt_of_lt_of_le (location_step h) (le_past _ _)

/-- The white space at the start of a line takes in a line feed. -/
theorem Cursor.skip_lineFeed (l : Location) :
    (⟨lineFeed, l⟩ : Cursor).skip atBlank = ⟨[], l.nextLine⟩ :=
  skip_cons (by decide)

end Source

namespace Token

open Source Unicode

/-- How the tokens of an input end. -/
structure Tail where
  /-- Where the input ends. -/
  last : Location
  /-- The levels that are open there. -/
  levels : Nat
  /-- Whether a lexeme stands in the last line, so that a line feed ends it. -/
  written : Bool

namespace Tail

/-- The open levels are closed at a location. -/
def closing (e : Tail) (l : Location) : List Token := List.replicate e.levels (bare .unindent l)

/-- What follows the last line when it is ended. -/
def ended (e : Tail) : List Token :=
  (if e.written then [bare .newline e.last] else []) ++ e.closing e.last.nextLine

/-- The tokens `ts` stand in front of the end. The last of them is inside a line if that line is to be
ended. -/
structure Follows (e : Tail) (ts : List Token) : Prop where
  before : ∀ t ∈ ts, t.location < e.last
  ne_eof : ∀ t ∈ ts, t.kind ≠ .eof
  written : ∀ t ∈ ts.getLast?, t.kind.isLayout = !e.written

variable {e : Tail} {t : Token} {ts : List Token}

theorem Follows.nil (e : Tail) : e.Follows [] := ⟨by simp, by simp, by simp⟩

theorem Follows.cons (h : e.Follows ts) (hbefore : t.location < e.last) (heof : t.kind ≠ .eof)
    (hnil : ts = [] → t.kind.isLayout = !e.written) : e.Follows (t :: ts) where
  before := List.forall_mem_cons.mpr ⟨hbefore, h.before⟩
  ne_eof := List.forall_mem_cons.mpr ⟨heof, h.ne_eof⟩
  written u hu := by
    by_cases hts : ts = []
    · subst hts
      obtain rfl : t = u := by simpa using hu
      exact hnil rfl
    · rw [List.getLast?_cons_of_ne_nil hts] at hu
      exact h.written u hu

theorem Follows.tail (h : e.Follows (t :: ts)) : e.Follows ts where
  before u hu := h.before u (List.mem_cons_of_mem t hu)
  ne_eof u hu := h.ne_eof u (List.mem_cons_of_mem t hu)
  written u hu := by
    refine h.written u ?_
    rwa [List.getLast?_cons_of_ne_nil (by rintro rfl; simp at hu)]

end Tail

namespace Scanner

variable {U : CharData} {s s' : Scanner} {t : Token} {x : Piece} {front : List Piece}

theorem Scans.location (h : s.Scans U t s') : t.location = s.front.location := by
  cases h with
  | lexeme => exact location_lexeme U _ _
  | ending | closing | shift | newline => rfl

/-- A scanner stays in its input. -/
theorem Scans.finish (h : s.Scans U t s') : s'.cursor.finish = s.cursor.finish := by
  have hfront : s.front.finish = s.cursor.finish := Cursor.finish_skip _ _
  cases h with
  | ending | closing | shift => exact hfront
  | newline => exact (Cursor.finish_step _).trans hfront
  | lexeme => exact (finish_lexeme _ _).trans hfront

/-- Behind a token that only white space follows, a line begins if the token is one of layout. -/
theorem Scans.lineStart_of_end (h : s.Scans U t s') (hne : s.front.rest ≠ [])
    (hend : s'.front.rest = []) : t.kind.isLayout = s'.layout.atLineStart := by
  cases h with
  | ending hnil | closing hnil => exact absurd hnil hne
  | @shift k m hstart _ hshift =>
    have hstop : atBlank s.front.rest = false := by
      rw [front_of_start hstart] at hne ⊢
      exact (skip_stops atBlank s.cursor).resolve_left hne
    have hspace : spaceTest m.atLineStart s.front.rest = false := by
      cases m.atLineStart with
      | true => exact hstop
      | false => exact Bool.and_eq_false_imp.mpr fun h => absurd h (by simp [hstop])
    have hsame : front ⟨s.front, m⟩ = s.front := skip_of_false hspace
    rw [hsame] at hend
    exact absurd hend hne
  | newline => rfl
  | lexeme => exact isLayout_lexeme U _ _

/-- Scanners at one place of an input, alone and with a line feed behind it. -/
inductive Facing : Scanner → Scanner → Prop
  | mk {front l layout} : Agrees endsLine front [] lineFeed →
      Facing ⟨⟨front ++ [], l⟩, layout⟩ ⟨⟨front ++ lineFeed, l⟩, layout⟩

/-- A comment ends with the input, or in front of the line feed. -/
theorem comment_facing (hends : Agrees endsLine (x :: front) [] lineFeed) (l : Location)
    (levels : List Nat) :
    LexemesAgree Facing levels (comment ⟨x :: (front ++ []), l⟩)
      (comment ⟨x :: (front ++ lineFeed), l⟩) := by
  obtain ⟨run, rest, m, hsplit, hskip, hskip'⟩ := Cursor.span_agrees_of_stop
    hends.tail.atInnerBlank hends.tail rfl (by decide) (Source.after l (x :: (front ++ [])))
  have hrest : Agrees endsLine rest [] lineFeed := hends.tail.of_suffix ⟨run, hsplit.symm⟩
  simp only [LexemesAgree, comment, Cursor.step, Cursor.skip, hends.after, hskip, hskip']
  rcases Cursor.span_agrees hrest.not_endsLine hrest m with
    ⟨body, y, left, m', hbody, hspan, hspan'⟩ | ⟨m', hspan, hspan'⟩
  · rw [hspan, hspan']
    exact ⟨rfl, .mk (hrest.of_suffix ⟨body, hbody.symm⟩)⟩
  · have hnone : Agrees endsLine [] [] lineFeed := hrest.of_suffix (List.nil_suffix)
    rw [hspan, hspan']
    exact ⟨rfl, .mk hnone⟩

theorem interrupts_nil (U : CharData) : Interrupts U [] := ⟨rfl, rfl⟩

theorem interrupts_lineFeed (U : CharData) : Interrupts U lineFeed where
  digit := by decide
  word := by
    have hword : U.continuesIdentifier '\n' = false := by
      simp [CharData.continuesIdentifier, show '\n'.isAlphanum = false by decide]
    exact hword

/-- A line feed where only white space is left of an input: it is passed at the start of a line, and
ends the line otherwise. -/
theorem stream_lineFeed (l : Location) (levels : List Nat) (start : Bool) :
    stream U ⟨⟨lineFeed, l⟩, ⟨levels, start⟩⟩ =
      ⟨Tail.ended ⟨l, levels.length, !start⟩, l.nextLine⟩ := by
  cases start with
  | true =>
    have hblank := scan_blank (U := U) (s := ⟨⟨lineFeed, l⟩, ⟨levels, true⟩⟩) rfl
    rw [Cursor.skip_lineFeed] at hblank
    rw [stream_congr hblank, stream_of_end, List.map_const']
    rfl
  | false =>
    have hends : endsLine lineFeed = true := by decide
    have hnewline := scan_newline (U := U) (s := ⟨⟨lineFeed, l⟩, ⟨levels, false⟩⟩) rfl hends
    have hstep : (⟨lineFeed, l⟩ : Cursor).step = ⟨[], l.nextLine⟩ := rfl
    rw [hstep] at hnewline
    rw [stream_of_token hnewline (by simp [bare]), stream_of_end, List.map_const']
    rfl

/-- The tokens of an input, alone and with a line feed behind it. -/
theorem Facing.exists_tail (U : CharData) {s s' : Scanner} (h : Facing s s') :
    ∃ e ts, e.last = s.cursor.finish ∧ Tail.Follows e ts ∧
      (ts = [] → s.front.rest = [] ∧ e.written = !s.layout.atLineStart) ∧
      s.stream U = ⟨ts ++ e.closing e.last, e.last⟩ ∧
      s'.stream U = ⟨ts ++ e.ended, e.last.nextLine⟩ := by
  cases h with
  | @mk front l layout hends =>
  rcases front_agree layout hends l with
    ⟨x, rest, m, hsuffix, hfront, hfront'⟩ | ⟨m, hfront, hfront'⟩
  · have hscans := scan_scans U ⟨⟨front ++ [], l⟩, layout⟩
    have hne : (Scanner.front ⟨⟨front ++ [], l⟩, layout⟩).rest ≠ [] := by
      rw [hfront]
      exact List.cons_ne_nil _ _
    have heof := hscans.ne_eof hne
    have hlt := weight_scan U heof
    have hleft := hends.of_suffix hsuffix
    have hlexeme := lexeme_agree (l := m) Facing.mk (interrupts_nil U) (interrupts_lineFeed U)
      layout.levels hleft (comment_facing hleft m layout.levels)
    obtain ⟨u', hscans', hfacing⟩ := scan_agree Facing.mk hleft hfront hfront' rfl hlexeme hscans
    obtain ⟨e, ts, hlast, hfollows, hnil, hstream, hstream'⟩ := Facing.exists_tail U hfacing
    refine ⟨e, _ :: ts, hlast.trans hscans.finish, hfollows.cons ?_ heof fun hts => ?_, by simp, ?_, ?_⟩
    · have hahead := Cursor.location_lt_finish hne
      rw [hscans.location, hlast, hscans.finish]
      rwa [Scanner.front, Cursor.finish_skip] at hahead
    · obtain ⟨hend, hwritten⟩ := hnil hts
      rw [hscans.lineStart_of_end hne hend, hwritten, Bool.not_not]
    · rw [stream_of_token hscans.scan_eq heof, hstream]
      rfl
    · rw [stream_of_token hscans'.scan_eq heof, hstream']
      rfl
  · obtain ⟨levels, start⟩ := layout
    have hend : Scanner.front ⟨⟨front ++ [], l⟩, ⟨levels, start⟩⟩ = ⟨[], m⟩ := hfront
    have hfinish : m = (⟨front ++ [], l⟩ : Cursor).finish := by
      have hskip := Cursor.finish_skip (spaceTest start) ⟨front ++ [], l⟩
      rw [← hskip]
      exact (congrArg Cursor.finish hend).symm
    refine ⟨⟨m, levels.length, !start⟩, [], hfinish, .nil _, fun _ => ⟨by rw [hend], rfl⟩, ?_, ?_⟩
    · rw [stream_of_front hfront rfl, stream_of_end, List.map_const']
      rfl
    · rw [stream_of_front hfront' rfl, stream_lineFeed]
      rfl
termination_by s.weight
decreasing_by exact hlt

end Scanner

/-- The tokens of an input whose last line is not ended, and those of the same input with a line feed
behind it. -/
theorem Stream.exists_tail (U : CharData) {pieces : List Piece}
    (hlast : pieces.getLast? ≠ some (.char '\r')) :
    ∃ e ts, e.last = past Location.start pieces ∧ Tail.Follows e ts ∧
      (ts = [] → e.written = false) ∧
      ofPieces U pieces = ⟨ts ++ e.closing e.last, e.last⟩ ∧
      ofPieces U (pieces ++ lineFeed) = ⟨ts ++ e.ended, e.last.nextLine⟩ := by
  have hfacing : Scanner.Facing (Scanner.start (pieces ++ []))
      (Scanner.start (pieces ++ lineFeed)) := .mk (.endsLine hlast)
  rw [List.append_nil] at hfacing
  obtain ⟨e, ts, hend, hfollows, hnil, hstream, hstream'⟩ := hfacing.exists_tail U
  exact ⟨e, ts, hend, hfollows, fun hts => (hnil hts).2, hstream, hstream'⟩

end Token

end FirSyntax
