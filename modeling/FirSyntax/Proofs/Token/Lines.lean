import FirSyntax.Proofs.Source.Lines
import FirSyntax.Proofs.Token.Joining
import FirSyntax.Proofs.Token.Spelling

/-!
# Tokens of a line

The scanner reads a line from its first lexeme to its end without looking at other lines, and the
tokens in front of a line do not depend on what the line holds. So sources that differ in the
content of one line have the same tokens in front of that line and behind it.
-/
namespace FirSyntax.Token

open Source Unicode

variable {U : CharData} {c : Cursor} {levels : List Nat} {rest : List Piece}

/-! ## The end of a line -/

/-- The tokens at the end of a line: its terminator and what follows, or what closes the levels where
the source ends with the line. -/
inductive LineBreak (line : Nat) (ending : Location) : List Token → List Token → Prop where
  | newline {t ts} : t.kind = .newline → t.location.line = line →
      (∀ u ∈ ts, line < u.location.line) → LineBreak line ending (t :: ts) ts
  | closing {ts} : (∀ t ∈ ts, t.kind = .unindent ∧ t.location.line = line) → ending.line = line →
      LineBreak line ending ts ts

namespace LineBreak

variable {line : Nat} {ending : Location} {t : Token} {ts tail after : List Token}

theorem isLayout (h : LineBreak line ending (t :: ts) after) : t.kind.isLayout = true := by
  cases h with
  | newline ht => rw [ht]; rfl
  | closing hall => rw [(hall t List.mem_cons_self).1]; rfl

/-- Behind its end nothing belongs to a line. -/
theorem below (h : LineBreak line ending tail after) (ht : t ∈ tail) :
    t.kind.isLayout = true ∨ line < t.location.line := by
  cases h with
  | newline hkind _ hbelow =>
    rcases List.mem_cons.mp ht with rfl | ht
    · exact .inl (by rw [hkind]; rfl)
    · exact .inr (hbelow t ht)
  | closing hall => exact .inl (by rw [(hall t ht).1]; rfl)

end LineBreak

/-- The same tokens, or as many that close a level. -/
def Twin (ts us : List Token) : Prop :=
  ts = us ∨ (∀ t ∈ ts, t.kind = .unindent) ∧ (∀ u ∈ us, u.kind = .unindent) ∧ ts.length = us.length

namespace Twin

variable {ts us vs : List Token} {t : Token}

theorem symm (h : Twin ts us) : Twin us ts :=
  h.imp Eq.symm fun ⟨hts, hus, hlength⟩ => ⟨hus, hts, hlength.symm⟩

theorem trans (h : Twin ts us) (h' : Twin us vs) : Twin ts vs := by
  rcases h with rfl | ⟨hts, hus, hlength⟩
  · exact h'
  · rcases h' with rfl | ⟨-, hvs, hlength'⟩
    · exact .inr ⟨hts, hus, hlength⟩
    · exact .inr ⟨hts, hvs, hlength.trans hlength'⟩

theorem of_nil (h : Twin [] us) : us = [] := by
  rcases h with rfl | ⟨-, -, hlength⟩
  · rfl
  · exact List.eq_nil_of_length_eq_zero hlength.symm

theorem of_unindent (h : Twin (t :: ts) us) (ht : t.kind = .unindent) :
    ∃ u vs, us = u :: vs ∧ u.kind = .unindent ∧ Twin ts vs := by
  rcases h with rfl | ⟨hts, hus, hlength⟩
  · exact ⟨t, ts, rfl, ht, .inl rfl⟩
  · cases us with
    | nil => cases hlength
    | cons u vs =>
      rw [List.forall_mem_cons] at hts hus
      exact ⟨u, vs, rfl, hus.1, .inr ⟨hts.2, hus.2, Nat.succ.inj hlength⟩⟩

end Twin

/-! ## Inside a line -/

/-- A test that terminators fail is not passed where a line ends. -/
theorem not_endsLine_of_test {p : List Piece → Bool}
    (hp : ∀ x rest, x.isTerminator = true → p (x :: rest) = false) (h : p rest = true) :
    endsLine rest = false := by
  rw [Bool.eq_false_iff]
  intro hends
  cases rest with
  | nil => cases hends
  | cons x rest =>
    rw [hp x rest (isTerminator_of_endsLine hends)] at h
    cases h

theorem not_endsLine_of_innerBlank (h : atInnerBlank rest = true) : endsLine rest = false := by
  rw [atInnerBlank, Bool.and_eq_true, Bool.not_eq_true'] at h
  exact h.2

theorem not_endsLine_of_not_blank (h : atBlank rest = false) : endsLine rest = false := by
  rw [Bool.eq_false_iff]
  intro hends
  rw [atBlank_of_endsLine hends] at h
  cases h

/-- A lexeme stays in its line. -/
theorem lineEnd_lexeme (hU : U.BlanksApart) (first : Piece) (hends : endsLine c.rest = false) :
    (lexeme U first c).2.lineEnd = c.lineEnd := by
  have hstep := Cursor.lineEnd_step hends
  have hdigit (rest : List Piece) (h : atDigit rest = true) : endsLine rest = false :=
    not_endsLine_of_test (fun _ _ hx => Scanner.atDigit_terminator hx) h
  have hword (rest : List Piece) (h : atWordPart U rest = true) : endsLine rest = false :=
    not_endsLine_of_test (fun _ _ hx => Scanner.atWordPart_terminator hU hx) h
  unfold lexeme
  split
  · exact hstep
  · split
    · exact (Cursor.lineEnd_span hdigit c.step).trans hstep
    · split
      · have hskip := Cursor.lineEnd_skip (fun _ => not_endsLine_of_innerBlank) c.step
        have hbody := Cursor.lineEnd_span (p := fun rest => !endsLine rest)
          (fun _ h => by simpa using h) (c.step.skip atInnerBlank)
        exact hbody.trans (hskip.trans hstep)
      · split
        · exact (Cursor.lineEnd_span hword c.step).trans hstep
        · exact hstep

theorem line_of_lineEnd {d : Cursor} (h : d.lineEnd = c.lineEnd) :
    d.location.line = c.location.line := by
  rw [← Cursor.line_lineEnd d, h, Cursor.line_lineEnd]

namespace Scanner

mutual

/-- The tokens from inside a line to its end. -/
theorem stream_line (hU : U.BlanksApart) (levels : List Nat) (c : Cursor) :
    ∃ fs, (inLine levels c).stream U = ⟨fs ++ ((inLine levels c.lineEnd).stream U).tokens,
        ((inLine levels c.lineEnd).stream U).ending⟩ ∧
      ∀ t ∈ fs, t.kind.isLayout = false ∧ t.location.line = c.location.line := by
  have hskip := Cursor.lineEnd_skip (p := atInnerBlank) (fun _ => not_endsLine_of_innerBlank) c
  have hlength := Cursor.length_skip_le atInnerBlank c
  have hinner := stream_congr (scan_inner (U := U) (s := inLine levels c) rfl)
  rw [hinner, ← hskip, ← line_of_lineEnd hskip]
  by_cases hstop : (c.skip atInnerBlank).rest = [] ∨ endsLine (c.skip atInnerBlank).rest = true
  · rw [Cursor.lineEnd_of_stop hstop]
    exact ⟨[], rfl, by simp⟩
  · rw [not_or, Bool.not_eq_true] at hstop
    have hblank : atBlank (c.skip atInnerBlank).rest = false := by
      have hafter := (skip_stops atInnerBlank c).resolve_left hstop.1
      simpa [atInnerBlank, hstop.2] using hafter
    obtain ⟨t, fs, hstream, _, hline⟩ :=
      stream_content hU levels (c.skip atInnerBlank) hstop.1 hblank
    exact ⟨t :: fs, hstream, hline⟩
termination_by 2 * c.rest.length + 1

/-- The tokens of a line from its first lexeme on. -/
theorem stream_content (hU : U.BlanksApart) (levels : List Nat) (c : Cursor) (hne : c.rest ≠ [])
    (hblank : atBlank c.rest = false) :
    ∃ t fs, (inLine levels c).stream U = ⟨t :: fs ++ ((inLine levels c.lineEnd).stream U).tokens,
        ((inLine levels c.lineEnd).stream U).ending⟩ ∧ t.location = c.location ∧
      ∀ u ∈ t :: fs, u.kind.isLayout = false ∧ u.location.line = c.location.line := by
  obtain ⟨first, rest, hrest⟩ := List.exists_cons_of_ne_nil hne
  have hends := not_endsLine_of_not_blank hblank
  have hscan := scan_lexeme (U := U) (s := inLine levels c) rfl hrest hblank
  have hkind := isLayout_lexeme U first c
  have hlocation := (line_lexeme_le (U := U) first c).1
  have hsame := lineEnd_lexeme hU first hends
  have hlength : (lexeme U first c).2.rest.length < c.rest.length := by
    have hle := length_lexeme_le U first c
    rw [Cursor.length_step] at hle
    have hpos := List.length_pos_iff.mpr hne
    omega
  obtain ⟨fs, hstream, hline⟩ := stream_line hU levels (lexeme U first c).2
  rw [hsame] at hstream
  rw [line_of_lineEnd hsame] at hline
  refine ⟨(lexeme U first c).1, fs, ?_, hlocation, ?_⟩
  · rw [stream_of_token hscan (Kind.ne_eof_of_content hkind)]
    change (⟨_ :: ((inLine levels (lexeme U first c).2).stream U).tokens,
      ((inLine levels (lexeme U first c).2).stream U).ending⟩ : Stream) = _
    rw [hstream]
    rfl
  · rw [List.forall_mem_cons]
    exact ⟨⟨hkind, congrArg Location.line hlocation⟩, hline⟩
termination_by 2 * c.rest.length

end

/-! ## In front of a line -/

/-- The tokens of layout in front of a line depend on its margin only. -/
theorem stream_layout (place : Location) (levels : List Nat) :
    ∃ front levels', (∀ t ∈ front, t.kind.isLayout = true) ∧
      ∀ rest, rest ≠ [] → atBlank rest = false →
        stream U ⟨⟨rest, place⟩, ⟨levels, true⟩⟩ =
          ⟨front ++ ((inLine levels' ⟨rest, place⟩).stream U).tokens,
            ((inLine levels' ⟨rest, place⟩).stream U).ending⟩ := by
  have hskip {rest : List Piece} (hblank : atBlank rest = false) :
      (⟨rest, place⟩ : Cursor).skip atBlank = ⟨rest, place⟩ := skip_of_false hblank
  cases hshift : Layout.shift? ⟨levels, true⟩ (place.column - 1) with
  | none =>
    refine ⟨[], levels, by simp, fun rest hne hblank => ?_⟩
    have hsettled := scan_settled (U := U) (s := ⟨⟨rest, place⟩, ⟨levels, true⟩⟩) rfl
      (by rwa [hskip hblank]) (by rwa [hskip hblank])
    rw [hskip hblank] at hsettled
    exact stream_congr hsettled
  | some shifted =>
    obtain ⟨k, m⟩ := shifted
    have hlayout : (bare k place).kind.isLayout = true := by
      rcases Layout.kind_of_shift hshift with rfl | rfl | rfl <;> rfl
    have hk : (bare k place).kind ≠ .eof := by
      rcases Layout.kind_of_shift hshift with rfl | rfl | rfl <;> simp [bare]
    have hstream (rest : List Piece) (hne : rest ≠ []) (hblank : atBlank rest = false) :
        stream U ⟨⟨rest, place⟩, ⟨levels, true⟩⟩ =
          ⟨bare k place :: (stream U ⟨⟨rest, place⟩, m⟩).tokens,
            (stream U ⟨⟨rest, place⟩, m⟩).ending⟩ := by
      have hscan := scan_shift (U := U) (s := ⟨⟨rest, place⟩, ⟨levels, true⟩⟩) rfl
        (by rwa [hskip hblank]) (by rwa [hskip hblank])
      rw [hskip hblank] at hscan
      exact stream_of_token hscan hk
    obtain ⟨-, -, rfl⟩ | ⟨top, outer, hlevels, -, ⟨-, -, rfl⟩ | ⟨-, -, rfl⟩⟩ :=
      Layout.shift_cases hshift
    · exact ⟨[bare k place], _, List.forall_mem_singleton.mpr hlayout, hstream⟩
    · exact ⟨[bare k place], _, List.forall_mem_singleton.mpr hlayout, hstream⟩
    · have hshorter : outer.length < levels.length := by
        rw [show levels = top :: outer from hlevels, List.length_cons]
        omega
      obtain ⟨front, levels', hfront, hrest⟩ := stream_layout place outer
      refine ⟨bare k place :: front, levels', ?_, fun rest hne hblank => ?_⟩
      · rw [List.forall_mem_cons]
        exact ⟨hlayout, hfront⟩
      · rw [hstream rest hne hblank, hrest rest hne hblank]
        rfl
termination_by levels.length

/-- White space leads over the margin of a line to its content. -/
theorem skip_margin {margin : List Piece}
    (hmargin : ∀ x ∈ margin, x.isChar isBlank = true ∧ x.isTerminator = false)
    (hblank : atBlank rest = false) (l : Location) :
    (⟨margin ++ rest, l⟩ : Cursor).skip atBlank =
      ⟨rest, ⟨l.line, l.column + margin.length⟩⟩ := by
  induction margin generalizing l with
  | nil => exact skip_of_false hblank
  | cons x margin ih =>
    rw [List.forall_mem_cons] at hmargin
    have hends : endsLine (x :: (margin ++ rest)) = false := by
      cases h : endsLine (x :: (margin ++ rest)) with
      | false => rfl
      | true => exact (isTerminator_of_endsLine h).symm.trans hmargin.1.2
    have hpass : atBlank (x :: (margin ++ rest)) = true := hmargin.1.1
    rw [List.cons_append, Cursor.skip_cons hpass, ih hmargin.2, Source.after, hends]
    simp only [Bool.false_eq_true, if_false, Location.nextColumn, List.length_cons,
      Cursor.mk.injEq, Location.mk.injEq, true_and]
    omega

theorem separate_margin {margin : List Piece}
    (hmargin : ∀ x ∈ margin, x.isChar isBlank = true ∧ x.isTerminator = false)
    (hblank : atBlank rest = false) : Separate (margin ++ rest) := by
  intro hhead
  cases margin with
  | nil =>
    cases rest with
    | nil => cases hhead
    | cons x rest =>
      obtain rfl : x = .char '\n' := by simpa using hhead
      cases hblank
  | cons x margin =>
    obtain rfl : x = .char '\n' := by simpa using hhead
    have hterminator := (hmargin _ List.mem_cons_self).2
    cases hterminator

/-- Whatever stands behind whole lines and the margin of a further one, the tokens in front of it
are the same: layout, and tokens of earlier lines. -/
theorem stream_front (hU : U.BlanksApart) {margin : List Piece}
    (hmargin : ∀ x ∈ margin, x.isChar isBlank = true ∧ x.isTerminator = false) {place : Location}
    (s : Scanner) (hready : s.Ready) (hpos : ∀ w ∈ s.layout.levels, 0 < w)
    (hplace : place = ⟨s.cursor.finish.line, s.cursor.finish.column + margin.length⟩) :
    ∃ front levels, (∀ t ∈ front, t.kind.isLayout = true ∨ t.location.line < place.line) ∧
      ∀ rest, rest ≠ [] → atBlank rest = false →
        (s.extend (margin ++ rest)).stream U =
          ⟨front ++ ((inLine levels ⟨rest, place⟩).stream U).tokens,
            ((inLine levels ⟨rest, place⟩).stream U).ending⟩ := by
  by_cases hend : s.layout.atLineStart = true ∧ (s.cursor.skip atBlank).rest = []
  · obtain ⟨front, levels, hfront, hlayout⟩ := stream_layout (U := U) place s.layout.levels
    refine ⟨front, levels, fun t ht => .inl (hfront t ht), fun rest hne hblank => ?_⟩
    have hskip : (s.extend (margin ++ rest)).cursor.skip atBlank = ⟨rest, place⟩ := by
      rw [hplace, ← skip_margin hmargin hblank]
      exact Cursor.skip_extend_of_end (local_atBlank (margin ++ rest))
        (separate_margin hmargin hblank) hend.2
    have hscan := scan_blank (U := U) (s := s.extend (margin ++ rest)) hend.1
    rw [hskip] at hscan
    rw [stream_congr hscan, ← hlayout rest hne hblank, ← hend.1]
    rfl
  · have hgo : s.layout.atLineStart = true → (s.cursor.skip atBlank).rest ≠ [] := by
      simpa using hend
    have hterminated : Terminated s.cursor.rest := by
      refine hready.resolve_right ?_
      rintro ⟨hnil, hstart⟩
      refine hgo hstart ?_
      rw [skip_of_false (by rw [hnil]; rfl), hnil]
    obtain ⟨hkeeps, hpos'⟩ := scan_keeps hU hterminated hgo hpos
    have hlt := weight_scan U hkeeps.token
    obtain ⟨front, levels, hearlier, hfront⟩ := stream_front hU hmargin (s.scan U).2 hkeeps.ready
      hpos' (hkeeps.finish ▸ hplace)
    refine ⟨(s.scan U).1 :: front, levels, ?_, fun rest hne hblank => ?_⟩
    · rw [List.forall_mem_cons, hplace]
      exact ⟨.inr hkeeps.line, hplace ▸ hearlier⟩
    · have hscan := scan_extend hU (separate_margin hmargin hblank) hterminated hgo
      rw [stream_of_token hscan hkeeps.token, hfront rest hne hblank]
      rfl
termination_by s.weight

/-! ## Behind a line -/

/-- Where a line ends, the tokens behind it do not depend on its length. -/
theorem stream_lineEnd (levels : List Nat) (line : Nat) {rest : List Piece}
    (hstop : rest = [] ∨ endsLine rest = true) :
    ∃ behind, ∀ c : Cursor, c.rest = rest → c.location.line = line → ∃ after,
      LineBreak line ((inLine levels c).stream U).ending ((inLine levels c).stream U).tokens after ∧
        Twin behind after := by
  cases rest with
  | nil =>
    refine ⟨levels.map fun _ => bare .unindent Location.start, fun c hrest hline => ?_⟩
    obtain ⟨rest, l⟩ := c
    obtain rfl : rest = [] := hrest
    rw [inLine, stream_of_end]
    refine ⟨levels.map fun _ => bare .unindent l, .closing ?_ hline, .inr (by simp [bare])⟩
    rw [List.forall_mem_map]
    exact fun _ _ => ⟨rfl, hline⟩
  | cons x rest =>
    have hends : endsLine (x :: rest) = true := hstop.resolve_left (by simp)
    let below : Scanner := ⟨⟨rest, ⟨line + 1, 1⟩⟩, ⟨levels, true⟩⟩
    refine ⟨(below.stream U).tokens, fun c hrest hline => ⟨_, ?_, .inl rfl⟩⟩
    have hnext : Source.after c.location (x :: rest) = below.cursor.location := by
      rw [Source.after, if_pos hends, Location.nextLine, hline]
    have hstep : c.step = below.cursor := by
      rw [Cursor.step, hrest]
      exact congrArg (Cursor.mk rest) hnext
    have hscan := scan_newline (U := U) (s := inLine levels c) rfl (hrest ▸ hends)
    rw [show (inLine levels c).cursor.step = _ from hstep] at hscan
    rw [stream_of_token hscan (by simp [bare])]
    exact .newline rfl hline (line_stream_le below).1

end Scanner

/-! ## A line of a source -/

/-- The tokens of a stream around those of the line whose content begins at `place`: `others` follow
the first one in the line, `tail` begins with the end of the line and `after` behind it. -/
structure Stream.HasLine (stream : Stream) (place : Location) (before : List Token) (first : Token)
    (others tail after : List Token) : Prop where
  tokens : stream.tokens = before ++ (first :: others ++ tail)
  earlier : ∀ t ∈ before, t.kind.isLayout = true ∨ t.location.line < place.line
  location : first.location = place
  inside : ∀ t ∈ first :: others, t.kind.isLayout = false ∧ t.location.line = place.line
  ends : LineBreak place.line stream.ending tail after

/-- A token inside a line that begins the line is the first one of it. -/
theorem Stream.HasLine.eq_of_line {stream : Stream} {place : Location} {first x : Token}
    {before others tail after us xs : List Token}
    (h : stream.HasLine place before first others tail after)
    (htokens : stream.tokens = us ++ x :: xs) (hx : x.kind.isLayout = false)
    (hlast : ∀ e ∈ us.getLast?, e.kind.isLayout = true) (hline : x.location.line = place.line) :
    us = before ∧ x :: xs = first :: others ++ tail := by
  rcases List.append_eq_append_iff.mp (htokens.symm.trans h.tokens) with
    ⟨ws, rfl, hws⟩ | ⟨ws, rfl, hws⟩
  · cases ws with
    | nil => exact ⟨by simp, hws⟩
    | cons w ws =>
      obtain ⟨rfl, -⟩ := List.cons.inj hws
      rcases h.earlier x (by simp) with hlayout | hlt
      · rw [hx] at hlayout
        cases hlayout
      · omega
  · cases ws with
    | nil => exact ⟨by simp, hws.symm⟩
    | cons w ws =>
      rw [List.cons_append, List.cons_append, List.cons.injEq] at hws
      obtain ⟨rfl, hrest⟩ := hws
      rcases List.append_eq_append_iff.mp hrest with ⟨vs, rfl, hvs⟩ | ⟨vs, rfl, hvs⟩
      · -- `x` stands behind the line
        have hmem : x ∈ tail := by rw [hvs]; exact List.mem_append_right vs List.mem_cons_self
        rcases h.ends.below hmem with hlayout | hlt
        · rw [hx] at hlayout
          cases hlayout
        · omega
      · -- `x` stands behind a token of the line
        obtain ⟨e, he⟩ : ∃ e, (first :: ws).getLast? = some e := by simp [List.getLast?_cons]
        have hlayout := hlast e (by rw [List.getLast?_append, he]; rfl)
        have hmem : e ∈ first :: (ws ++ vs) := by
          have := List.mem_of_getLast? he
          rw [← List.cons_append]
          exact List.mem_append_left vs this
        rw [(h.inside e hmem).1] at hlayout
        cases hlayout

/-- Sources that differ in the content of one line have the same tokens in front of that line and
behind it. -/
theorem Stream.exists_hasLine (hU : U.BlanksApart) {lines margin : List Piece}
    (hlines : lines = [] ∨ Terminated lines)
    (hmargin : ∀ x ∈ margin, x.isChar isBlank = true ∧ x.isTerminator = false)
    (back : List Piece) :
    ∃ before behind, ∀ content, content ≠ [] → (∀ x ∈ content, x.isTerminator = false) →
      atBlank content = false → ∃ first others tail after,
        (ofPieces U (lines ++ (margin ++ (content ++ back)))).HasLine
          ⟨terminators lines + 1, margin.length + 1⟩ before first others tail after ∧
        Twin behind after := by
  let place : Location := ⟨terminators lines + 1, margin.length + 1⟩
  let start := Scanner.start lines
  have hfinish : start.cursor.finish = ⟨terminators lines + 1, 1⟩ := by
    rcases hlines with rfl | hterminated
    · rfl
    · rw [Nat.add_comm]
      exact (past_of_terminated Location.start hterminated).1
  have hready : start.Ready := hlines.symm.imp_right fun hnil => ⟨hnil, rfl⟩
  have hplace : place = ⟨start.cursor.finish.line, start.cursor.finish.column + margin.length⟩ := by
    rw [hfinish, Nat.add_comm 1]
  obtain ⟨before, levels, hearlier, hfront⟩ := Scanner.stream_front hU hmargin start hready
    (by simp [start, Scanner.start, Layout.start]) hplace
  obtain ⟨behind, hbehind⟩ := Scanner.stream_lineEnd (U := U) levels place.line
    (Cursor.lineEnd_stops ⟨back, Location.start⟩)
  refine ⟨before, behind, fun content hne honLine hblank => ?_⟩
  obtain ⟨x, xs, rfl⟩ := List.exists_cons_of_ne_nil hne
  let c : Cursor := ⟨x :: xs ++ back, place⟩
  obtain ⟨first, others, hstream, hlocation, hinside⟩ :=
    Scanner.stream_content hU levels c (by simp [c]) hblank
  obtain ⟨after, hends, htwin⟩ := hbehind c.lineEnd
    (Cursor.rest_lineEnd_append honLine back place Location.start) (Cursor.line_lineEnd c)
  have hwhole : ofPieces U (lines ++ (margin ++ (x :: xs ++ back))) =
      ⟨before ++ ((Scanner.inLine levels c).stream U).tokens,
        ((Scanner.inLine levels c).stream U).ending⟩ := hfront (x :: xs ++ back) (by simp) hblank
  rw [hwhole, hstream]
  exact ⟨first, others, _, after, ⟨rfl, hearlier, hlocation, hinside, hends⟩, htwin⟩

end FirSyntax.Token
