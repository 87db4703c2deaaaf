import FirSyntax.Proofs.Source.Spans
import FirSyntax.Proofs.Token.Layout
import FirSyntax.Proofs.Token.Levels
import FirSyntax.Proofs.Unicode.Blank
import FirSyntax.Token.Stream

/-!
# Levels of a scanner

The tokens of any input are laid out: the scanner opens and closes levels at the start of a line
only, gives a line to every level that it opens, and closes all of them in the end. An input that
ends with a line terminator has no line that is cut short.
-/
namespace FirSyntax.Token

open Source Unicode

variable {U : CharData} {cut : Bool} {s : Scanner} {c : Cursor}

/-- The tokens from a scanner on. -/
def Scanner.stream (U : CharData) (s : Scanner) : Stream := s.drain U []

theorem Scanner.drain_eq (done : List Token) (s : Scanner) :
    s.drain U done = ⟨done.reverse ++ (s.stream U).tokens, (s.stream U).ending⟩ := by
  by_cases h : (s.scan U).1.kind = .eof
  · rw [stream, drain, dif_pos h, drain, dif_pos h]
    simp
  · have hlt := weight_scan U h
    have hstream : s.stream U = (s.scan U).2.drain U [(s.scan U).1] := by
      rw [stream, drain, dif_neg h]
    rw [drain, dif_neg h, drain_eq, hstream, drain_eq [_]]
    simp
termination_by s.weight

theorem Scanner.stream_of_eof {t : Token} {s' : Scanner} (h : s.scan U = (t, s'))
    (ht : t.kind = .eof) : s.stream U = ⟨[], t.location⟩ := by
  rw [stream, drain, dif_pos (by rwa [h]), h]
  rfl

theorem Scanner.stream_of_token {t : Token} {s' : Scanner} (h : s.scan U = (t, s'))
    (ht : t.kind ≠ .eof) : s.stream U = ⟨t :: (s'.stream U).tokens, (s'.stream U).ending⟩ := by
  rw [stream, drain, dif_neg (by rwa [h]), drain_eq, h]
  rfl

/-- The tokens of a line are content, whatever its pieces are. -/
theorem isLayout_kindOfWord (text : String) : (kindOfWord text).isLayout = false := by
  unfold kindOfWord
  split <;> rfl

theorem isLayout_lexeme (U : CharData) (first : Piece) (c : Cursor) :
    (lexeme U first c).1.kind.isLayout = false := by
  unfold lexeme
  split
  · rfl
  · split
    · rfl
    · split
      · rfl
      · split
        · simp only [word, ofRun]
          split
          · exact isLayout_kindOfWord _
          · split
            · exact isLayout_kindOfWord _
            · rfl
        · simp only [kindOfChar]
          split <;> rfl

namespace Scanner

/-- At the end of the input the open levels are closed. -/
theorem stream_of_end {levels : List Nat} {start : Bool} {l : Location} :
    stream U ⟨⟨[], l⟩, ⟨levels, start⟩⟩ = ⟨levels.map fun _ => bare .unindent l, l⟩ := by
  induction levels with
  | nil =>
    have hscan : scan U ⟨⟨[], l⟩, ⟨[], start⟩⟩ = (bare .eof l, ⟨⟨[], l⟩, ⟨[], start⟩⟩) := by
      cases start <;> rfl
    rw [stream_of_eof hscan rfl]
    rfl
  | cons w outer ih =>
    have hscan : scan U ⟨⟨[], l⟩, ⟨w :: outer, start⟩⟩ =
        (bare .unindent l, ⟨⟨[], l⟩, ⟨outer, start⟩⟩) := by
      cases start <;> rfl
    rw [stream_of_token hscan (by simp [bare]), ih]
    rfl

theorem skip_of_false {p : List Piece → Bool} (h : p c.rest = false) : c.skip p = c := by
  obtain ⟨rest, l⟩ := c
  cases rest with
  | nil => rfl
  | cons x rest => simp_all [Cursor.skip, Cursor.span, Cursor.spanFrom]

/-- Where a line goes on with something else than white space, a lexeme is next. -/
theorem content_of_lexeme {first : Piece} {rest : List Piece} (hrest : s.cursor.rest = first :: rest)
    (hblank : atBlank s.cursor.rest = false) :
    content U s = ((lexeme U first s.cursor).1, ⟨(lexeme U first s.cursor).2, s.layout⟩) := by
  have hends : endsLine s.cursor.rest = false := by
    cases h : endsLine s.cursor.rest with
    | false => rfl
    | true => simp [atBlank_of_endsLine h] at hblank
  have hskip : s.cursor.skip atInnerBlank = s.cursor :=
    skip_of_false (by simp [atInnerBlank, hblank])
  simp only [content, hskip]
  rw [hrest] at hends ⊢
  simp [hends]

/-- What is asked of the pieces that are left of an input that is not cut short. -/
def Whole (cut : Bool) (U : CharData) (rest : List Piece) : Prop :=
  cut = false → U.BlanksApart ∧ Terminated rest

theorem terminated_skip {p : List Piece → Bool}
    (hp : ∀ x : Piece, x.isTerminator = true → p [x] = false) (h : Terminated c.rest) :
    Terminated (c.skip p).rest :=
  Cursor.terminated_spanFrom hp h

theorem terminated_span {p : List Piece → Bool}
    (hp : ∀ x : Piece, x.isTerminator = true → p [x] = false) (h : Terminated c.rest) :
    Terminated (c.span p).2.rest :=
  Cursor.terminated_spanFrom hp h

theorem atInnerBlank_terminator {x : Piece} (h : x.isTerminator = true) :
    atInnerBlank [x] = false := by
  rw [atInnerBlank, show endsLine [x] = true from h, Bool.not_true, Bool.and_false]

theorem terminator_blank {x : Piece} (h : x.isTerminator = true) :
    ∃ c, x = .char c ∧ isBlank c = true := by
  have hblank : atBlank [x] = true := atBlank_of_endsLine h
  cases x with
  | char c => exact ⟨c, rfl, hblank⟩
  | invalid bs => cases h

theorem atWordPart_terminator (hU : U.BlanksApart) {x : Piece} (h : x.isTerminator = true) :
    atWordPart U [x] = false := by
  obtain ⟨c, rfl, hc⟩ := terminator_blank h
  exact hU.continuesIdentifier hc

theorem atDigit_terminator {x : Piece} (h : x.isTerminator = true) : atDigit [x] = false := by
  obtain ⟨c, rfl, hc⟩ := terminator_blank h
  have hword := CharData.not_word_of_blank hc
  simp only [Char.isAlphanum, Bool.or_eq_false_iff] at hword
  exact hword.1.2

/-- A lexeme leaves the line terminator behind it. -/
theorem terminated_lexeme (hU : U.BlanksApart) {first : Piece} {rest : List Piece}
    (hrest : c.rest = first :: rest) (hblank : atBlank c.rest = false) (h : Terminated c.rest) :
    Terminated (lexeme U first c).2.rest := by
  have hstep : Terminated c.step.rest := by
    have heq : c.step.rest = rest := by simp [Cursor.step, hrest]
    rw [heq]
    rw [hrest] at h hblank
    refine h.of_cons ?_
    rintro rfl
    simp [atBlank_of_endsLine h.of_singleton] at hblank
  unfold lexeme
  split
  · exact hstep
  · split
    · exact terminated_span (fun _ => atDigit_terminator) hstep
    · split
      · refine terminated_span ?_ (terminated_skip (fun _ => atInnerBlank_terminator) hstep)
        intro x hx
        simpa [Piece.isTerminator] using hx
      · split
        · exact terminated_span (fun _ => atWordPart_terminator hU) hstep
        · exact hstep

/-- The tokens from a scanner on are known from its next one. -/
theorem stream_congr {s s' : Scanner} (h : s.scan U = s'.scan U) : s.stream U = s'.stream U := by
  by_cases heof : (s.scan U).1.kind = .eof
  · rw [stream_of_eof (s := s) rfl heof, stream_of_eof (s := s') h.symm heof]
  · rw [stream_of_token (s := s) rfl heof, stream_of_token (s := s') h.symm heof]

theorem skip_stops (p : List Piece → Bool) (c : Cursor) :
    (c.skip p).rest = [] ∨ p (c.skip p).rest = false :=
  Cursor.spanFrom_stops p [] c.rest c.location

theorem skip_skip (p : List Piece → Bool) (c : Cursor) : (c.skip p).skip p = c.skip p := by
  rcases skip_stops p c with h | h
  · generalize c.skip p = d at h ⊢
    obtain ⟨rest, l⟩ := d
    subst h
    rfl
  · exact skip_of_false h

/-- White space inside a line leads to the next token of the line. -/
theorem scan_inner (h : s.layout.atLineStart = false) :
    s.scan U = scan U ⟨s.cursor.skip atInnerBlank, s.layout⟩ := by
  simp [scan, h, content, skip_skip]

theorem scan_newline (h : s.layout.atLineStart = false) (hends : endsLine s.cursor.rest = true) :
    s.scan U =
      (bare .newline s.cursor.location, ⟨s.cursor.step, { s.layout with atLineStart := true }⟩) := by
  have hskip : s.cursor.skip atInnerBlank = s.cursor := skip_of_false (by simp [atInnerBlank, hends])
  obtain ⟨first, rest, hrest⟩ : ∃ first rest, s.cursor.rest = first :: rest := by
    cases hrest : s.cursor.rest with
    | nil => simp [hrest, endsLine] at hends
    | cons first rest => exact ⟨_, _, rfl⟩
  rw [hrest] at hends
  simp [scan, h, content, hskip, hrest, hends]

theorem scan_lexeme {first : Piece} {rest : List Piece} (h : s.layout.atLineStart = false)
    (hrest : s.cursor.rest = first :: rest) (hblank : atBlank s.cursor.rest = false) :
    s.scan U = ((lexeme U first s.cursor).1, ⟨(lexeme U first s.cursor).2, s.layout⟩) := by
  rw [← content_of_lexeme hrest hblank, scan, if_neg (by simp [h])]

/-- Lines of white space lead to the first token behind them. -/
theorem scan_blank (h : s.layout.atLineStart = true) :
    s.scan U = scan U ⟨s.cursor.skip atBlank, s.layout⟩ := by
  simp [scan, h, skip_skip]

/-- A line of another level than the one before it. -/
theorem scan_shift {k : Kind} {m : Layout} (h : s.layout.atLineStart = true)
    (hrest : (s.cursor.skip atBlank).rest ≠ [])
    (hshift : s.layout.shift? ((s.cursor.skip atBlank).location.column - 1) = some (k, m)) :
    s.scan U = (bare k (s.cursor.skip atBlank).location, ⟨s.cursor.skip atBlank, m⟩) := by
  obtain ⟨first, rest, hrest⟩ := List.exists_cons_of_ne_nil hrest
  simp [scan, h, hrest, hshift]

/-- A line whose level is reached. -/
theorem scan_settled (h : s.layout.atLineStart = true)
    (hrest : (s.cursor.skip atBlank).rest ≠ [])
    (hshift : s.layout.shift? ((s.cursor.skip atBlank).location.column - 1) = none) :
    s.scan U = scan U ⟨s.cursor.skip atBlank, s.layout.settled⟩ := by
  obtain ⟨first, rest, hrest⟩ := List.exists_cons_of_ne_nil hrest
  simp [scan, h, hrest, hshift, Layout.settled]

mutual

theorem laid_lineStart (s : Scanner) (hstart : s.layout.atLineStart = true)
    (h : cut = false → U.BlanksApart ∧ (s.cursor.rest = [] ∨ Terminated s.cursor.rest)) :
    Laid cut .lineStart s.layout.levels.length (s.stream U).tokens := by
  have hlen := Cursor.length_skip_le atBlank s.cursor
  by_cases hrest : (s.cursor.skip atBlank).rest = []
  · rw [stream_congr (scan_blank hstart)]
    generalize hc : s.cursor.skip atBlank = c at hrest
    obtain ⟨rest, l⟩ := c
    subst hrest
    rw [show s.layout = ⟨s.layout.levels, s.layout.atLineStart⟩ from rfl, stream_of_end]
    have hclosing : Laid cut .lineStart _ (s.layout.levels.map fun _ => bare .unindent l) :=
      Laid.of_closing (by simp [bare])
    simpa using hclosing
  have hblank := (skip_stops atBlank s.cursor).resolve_left hrest
  have hwhole : Whole cut U (s.cursor.skip atBlank).rest := by
    intro hcut
    have happend := Cursor.span_append atBlank s.cursor
    refine ⟨(h hcut).1, ?_⟩
    rcases (h hcut).2 with hnil | hterminated
    · rw [hnil] at happend
      exact absurd (List.append_eq_nil_iff.mp happend).2 hrest
    · rw [← happend] at hterminated
      exact hterminated.of_append hrest
  have hsettled : weight ⟨s.cursor.skip atBlank, s.layout.settled⟩ ≤ s.weight := by
    simp [weight, Layout.weight, Layout.settled]
    omega
  cases hshift : s.layout.shift? ((s.cursor.skip atBlank).location.column - 1) with
  | none =>
    rw [stream_congr (scan_settled hstart hrest hshift)]
    exact laid_lexeme ⟨s.cursor.skip atBlank, s.layout.settled⟩ rfl hwhole hrest hblank
  | some shifted =>
    obtain ⟨k, m⟩ := shifted
    have hscan := scan_shift (U := U) hstart hrest hshift
    have hk : (bare k (s.cursor.skip atBlank).location).kind ≠ .eof := by
      rcases Layout.kind_of_shift hshift with rfl | rfl | rfl <;> simp [bare]
    have hlt : weight ⟨s.cursor.skip atBlank, m⟩ < s.weight := by
      simpa [hscan] using weight_scan U (s := s) (by rwa [hscan])
    rw [stream_of_token hscan hk]
    obtain ⟨rfl, -, rfl⟩ | ⟨top, outer, hlevels, -, ⟨rfl, -, rfl⟩ | ⟨rfl, -, rfl⟩⟩ :=
      Layout.shift_cases hshift
    · exact .indent rfl (laid_lexeme ⟨s.cursor.skip atBlank, ⟨_ :: s.layout.levels, false⟩⟩ rfl hwhole
        hrest hblank)
    · rw [hlevels]
      exact .mismatch rfl (laid_lexeme ⟨s.cursor.skip atBlank, ⟨outer, false⟩⟩ rfl hwhole hrest hblank)
    · rw [hlevels]
      exact .unindent rfl (laid_lineStart ⟨s.cursor.skip atBlank, ⟨outer, true⟩⟩ rfl fun hcut =>
        ⟨(h hcut).1, .inr (hwhole hcut).2⟩)
termination_by 2 * s.weight + 1

theorem laid_inside (s : Scanner) (hstart : s.layout.atLineStart = false)
    (h : Whole cut U s.cursor.rest) :
    Laid cut .inside s.layout.levels.length (s.stream U).tokens := by
  have hlen := Cursor.length_skip_le atInnerBlank s.cursor
  have hwhole : Whole cut U (s.cursor.skip atInnerBlank).rest := fun hcut =>
    ⟨(h hcut).1, terminated_skip (fun _ => atInnerBlank_terminator) (h hcut).2⟩
  rw [stream_congr (scan_inner hstart)]
  by_cases hrest : (s.cursor.skip atInnerBlank).rest = []
  · have hcut : cut = true := by
      cases cut with
      | true => rfl
      | false => exact absurd hrest (hwhole rfl).2.ne_nil
    generalize s.cursor.skip atInnerBlank = c at hrest
    obtain ⟨rest, l⟩ := c
    subst hrest
    rw [show s.layout = ⟨s.layout.levels, s.layout.atLineStart⟩ from rfl, stream_of_end]
    exact .closing hcut (by simp [bare]) (by simp)
  have hstop := (skip_stops atInnerBlank s.cursor).resolve_left hrest
  have hweight : weight ⟨s.cursor.skip atInnerBlank, s.layout⟩ ≤ s.weight := by
    simp only [weight]
    omega
  cases hends : endsLine (s.cursor.skip atInnerBlank).rest with
  | false =>
    refine laid_lexeme ⟨s.cursor.skip atInnerBlank, s.layout⟩ hstart hwhole hrest ?_
    simpa [atInnerBlank, hends] using hstop
  | true =>
    have hscan := scan_newline (U := U) (s := ⟨s.cursor.skip atInnerBlank, s.layout⟩) hstart hends
    have hlt : weight ⟨(s.cursor.skip atInnerBlank).step, { s.layout with atLineStart := true }⟩ <
        s.weight := by
      have := weight_scan U (s := ⟨s.cursor.skip atInnerBlank, s.layout⟩) (by rw [hscan]; simp [bare])
      rw [hscan] at this
      exact Nat.lt_of_lt_of_le this hweight
    rw [stream_of_token hscan (by simp [bare])]
    refine .newline rfl (laid_lineStart
      ⟨(s.cursor.skip atInnerBlank).step, ⟨s.layout.levels, true⟩⟩ rfl fun hcut => ?_)
    refine ⟨(h hcut).1, ?_⟩
    have hterminated := (hwhole hcut).2
    generalize s.cursor.skip atInnerBlank = c at hrest hterminated ⊢
    obtain ⟨rest, l⟩ := c
    cases rest with
    | nil => exact absurd rfl hrest
    | cons x rest =>
      by_cases hnil : rest = []
      · exact .inl hnil
      · exact .inr (hterminated.of_cons hnil)
termination_by 2 * s.weight + 1

/-- A line that begins with a lexeme. -/
theorem laid_lexeme {p : Position} (s : Scanner) (hstart : s.layout.atLineStart = false)
    (h : Whole cut U s.cursor.rest) (hne : s.cursor.rest ≠ [])
    (hblank : atBlank s.cursor.rest = false) :
    Laid cut p s.layout.levels.length (s.stream U).tokens := by
  obtain ⟨first, rest, hrest⟩ := List.exists_cons_of_ne_nil hne
  have hscan := scan_lexeme (U := U) hstart hrest hblank
  have hkind := isLayout_lexeme U first s.cursor
  have hne := Kind.ne_eof_of_content hkind
  have hlt : weight ⟨(lexeme U first s.cursor).2, s.layout⟩ < s.weight := by
    simpa [hscan] using weight_scan U (s := s) (by rwa [hscan])
  rw [stream_of_token hscan hne]
  refine .content hkind (laid_inside ⟨(lexeme U first s.cursor).2, s.layout⟩ hstart fun hcut => ?_)
  exact ⟨(h hcut).1, terminated_lexeme (h hcut).1 hrest hblank (h hcut).2⟩
termination_by 2 * s.weight

end

end Scanner

end FirSyntax.Token
