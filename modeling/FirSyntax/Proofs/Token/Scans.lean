import FirSyntax.Proofs.Token.ScannerLevels

/-!
# What a scan does

A scan first passes white space: whole lines of it at the start of a line, and otherwise what is left
of it in the line. What it finds there makes one of five cases, and whatever holds of a scanner in
all its states is shown for these.
-/
namespace FirSyntax.Token

open Source Unicode

/-- The white space in front of a token: whole lines of it are passed at the start of a line. -/
def spaceTest (lineStart : Bool) : List Piece → Bool := if lineStart then atBlank else atInnerBlank

namespace Scanner

variable {U : CharData} {s : Scanner}

/-- Where the next token is looked for. -/
def front (s : Scanner) : Cursor := s.cursor.skip (spaceTest s.layout.atLineStart)

/-- How the next token is scanned, and the scanner behind it. -/
inductive Scans (U : CharData) (s : Scanner) : Token → Scanner → Prop
  | ending : s.front.rest = [] → s.layout.levels = [] →
      Scans U s (bare .eof s.front.location) ⟨s.front, s.layout⟩
  | closing {w outer} : s.front.rest = [] → s.layout.levels = w :: outer →
      Scans U s (bare .unindent s.front.location) ⟨s.front, { s.layout with levels := outer }⟩
  | shift {k m} : s.layout.atLineStart = true → s.front.rest ≠ [] →
      s.layout.shift? (s.front.location.column - 1) = some (k, m) →
      Scans U s (bare k s.front.location) ⟨s.front, m⟩
  | newline : s.layout.atLineStart = false → endsLine s.front.rest = true →
      Scans U s (bare .newline s.front.location)
        ⟨s.front.step, { s.layout with atLineStart := true }⟩
  | lexeme {first rest} : s.front.rest = first :: rest → atBlank s.front.rest = false →
      (s.layout.atLineStart = true → s.layout.shift? (s.front.location.column - 1) = none) →
      Scans U s (lexeme U first s.front).1 ⟨(lexeme U first s.front).2, s.layout.settled⟩

/-- The file ends only where nothing is left. -/
theorem Scans.ne_eof {t : Token} {s' : Scanner} (h : s.Scans U t s') (hne : s.front.rest ≠ []) :
    t.kind ≠ .eof := by
  cases h with
  | ending hnil => exact absurd hnil hne
  | closing hnil => exact absurd hnil hne
  | shift _ _ hshift => rcases Layout.kind_of_shift hshift with rfl | rfl | rfl <;> simp [bare]
  | newline => simp [bare]
  | lexeme => exact Kind.ne_eof_of_content (isLayout_lexeme U _ _)

theorem front_of_start (h : s.layout.atLineStart = true) : s.front = s.cursor.skip atBlank := by
  rw [front, h]
  rfl

theorem front_of_inside (h : s.layout.atLineStart = false) :
    s.front = s.cursor.skip atInnerBlank := by
  rw [front, h]
  rfl

theorem front_of_span {c d : Cursor} {layout : Layout} {run : List Piece}
    (h : c.span (spaceTest layout.atLineStart) = (run, d)) : front ⟨c, layout⟩ = d := by
  rw [front, Cursor.skip, h]

theorem scan_front (s : Scanner) : s.scan U = scan U ⟨s.front, s.layout⟩ := by
  cases h : s.layout.atLineStart with
  | true =>
    rw [front_of_start h]
    exact scan_blank h
  | false =>
    rw [front_of_inside h]
    exact scan_inner h

/-- The tokens are known from where the next one is looked for. -/
theorem stream_of_front {s s' : Scanner} (hfront : s.front = s'.front) (hlayout : s.layout = s'.layout) :
    s.stream U = s'.stream U := by
  have hscan : s.scan U = s'.scan U := by
    rw [scan_front s, scan_front s', hfront, hlayout]
  exact stream_congr hscan

/-- At the end of the input the levels are closed one by one. -/
theorem scan_of_end (l : Location) (layout : Layout) :
    scan U ⟨⟨[], l⟩, layout⟩ =
      match layout.levels with
      | [] => (bare .eof l, ⟨⟨[], l⟩, layout⟩)
      | _ :: outer => (bare .unindent l, ⟨⟨[], l⟩, { layout with levels := outer }⟩) := by
  obtain ⟨levels, start⟩ := layout
  cases levels <;> cases start <;> rfl

/-- In front of the end of the file the tokens are the next one and those behind it. -/
theorem stream_eq (h : (s.scan U).1.kind ≠ .eof) :
    s.stream U = ⟨(s.scan U).1 :: ((s.scan U).2.stream U).tokens, ((s.scan U).2.stream U).ending⟩ :=
  stream_of_token rfl h

/-- The end of the file is no token of the stream. -/
theorem ne_eof_of_mem (s : Scanner) : ∀ t ∈ (s.stream U).tokens, t.kind ≠ .eof := by
  by_cases heof : (s.scan U).1.kind = .eof
  · rw [stream_of_eof (s := s) rfl heof]
    exact fun t ht => absurd ht List.not_mem_nil
  · have hlt := weight_scan U heof
    rw [stream_eq heof, List.forall_mem_cons]
    exact ⟨heof, ne_eof_of_mem (s.scan U).2⟩
termination_by s.weight

theorem Scans.scan_eq {t : Token} {s' : Scanner} (h : s.Scans U t s') : s.scan U = (t, s') := by
  have hend (hnil : s.front.rest = []) : s.front = ⟨[], s.front.location⟩ := by rw [← hnil]
  cases h with
  | ending hnil hlevels => rw [scan_front, hend hnil, scan_of_end, hlevels]
  | closing hnil hlevels => rw [scan_front, hend hnil, scan_of_end, hlevels]
  | shift hstart hne hshift =>
    rw [front_of_start hstart] at hne hshift ⊢
    exact scan_shift hstart hne hshift
  | newline hstart hends =>
    rw [scan_front]
    exact scan_newline (s := ⟨s.front, s.layout⟩) hstart hends
  | @lexeme first rest hrest hblank hshift =>
    have hlexeme := scan_lexeme (U := U) (s := ⟨s.front, s.layout.settled⟩) rfl hrest hblank
    cases hstart : s.layout.atLineStart with
    | false =>
      have hsettled : s.layout = s.layout.settled := by rw [Layout.settled, ← hstart]
      have hscan : s.scan U = scan U ⟨s.front, s.layout.settled⟩ := by
        rw [scan_front, ← hsettled]
      exact hscan.trans hlexeme
    | true =>
      have hne : s.front.rest ≠ [] := by simp [hrest]
      have hshift' := hshift hstart
      rw [front_of_start hstart] at hne hshift' hlexeme ⊢
      exact (scan_settled hstart hne hshift').trans hlexeme

theorem exists_scans (U : CharData) (s : Scanner) : ∃ t s', s.Scans U t s' := by
  by_cases hend : s.front.rest = []
  · cases hlevels : s.layout.levels with
    | nil => exact ⟨_, _, .ending hend hlevels⟩
    | cons w outer => exact ⟨_, _, .closing hend hlevels⟩
  obtain ⟨first, rest, hrest⟩ := List.exists_cons_of_ne_nil hend
  have hstop := (skip_stops (spaceTest s.layout.atLineStart) s.cursor).resolve_left hend
  change spaceTest s.layout.atLineStart s.front.rest = false at hstop
  cases hstart : s.layout.atLineStart with
  | true =>
    rw [hstart] at hstop
    cases hshift : s.layout.shift? (s.front.location.column - 1) with
    | some shifted => exact ⟨_, _, .shift hstart hend hshift⟩
    | none => exact ⟨_, _, .lexeme hrest hstop fun _ => hshift⟩
  | false =>
    rw [hstart] at hstop
    cases hends : endsLine s.front.rest with
    | true => exact ⟨_, _, .newline hstart hends⟩
    | false =>
      have hblank : atBlank s.front.rest = false := by
        rwa [spaceTest, if_neg Bool.false_ne_true, atInnerBlank, hends, Bool.not_false,
          Bool.and_true] at hstop
      refine ⟨_, _, .lexeme hrest hblank fun h => ?_⟩
      rw [hstart] at h
      cases h

theorem scan_scans (U : CharData) (s : Scanner) : s.Scans U (s.scan U).1 (s.scan U).2 := by
  obtain ⟨t, s', h⟩ := exists_scans U s
  rw [h.scan_eq]
  exact h

end Scanner

end FirSyntax.Token
