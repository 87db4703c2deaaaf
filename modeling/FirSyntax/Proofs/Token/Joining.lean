import FirSyntax.Proofs.Token.Lowering

/-!
# Tokens of sources one behind the other

A part of an input that ends with a line terminator is scanned as it is on its own, and what follows
it as if it began a file, only further down. For the levels to be closed in between, the second part
may not begin with white space.
-/
namespace FirSyntax.Token

open Source Unicode

variable {U : CharData} {back : List Piece} {s : Scanner} {c : Cursor} {n : Nat}

section Extension

variable (hU : U.BlanksApart) (hback : Separate back)

theorem local_atDigit (back : List Piece) : Local atDigit back := fun _ _ => rfl

theorem local_atWordPart (U : CharData) (back : List Piece) : Local (atWordPart U) back :=
  fun _ _ => rfl

include hback in
theorem local_not_endsLine : Local (fun rest => !endsLine rest) back := by
  intro x rest
  exact congrArg (!·) (local_endsLine hback x rest)

theorem rest_step {first : Piece} {rest : List Piece} (hrest : c.rest = first :: rest) :
    c.step.rest = rest := by
  simp [Cursor.step, hrest]

/-- Behind something that is no white space the line is still to be ended. -/
theorem terminated_step {first : Piece} {rest : List Piece} (hrest : c.rest = first :: rest)
    (hblank : atBlank c.rest = false) (h : Terminated c.rest) : Terminated c.step.rest := by
  rw [rest_step hrest]
  rw [hrest] at h hblank
  refine h.of_cons ?_
  rintro rfl
  simp [atBlank_of_endsLine h.of_singleton] at hblank

include hU hback in
theorem lexeme_extend {first : Piece} {rest : List Piece} (hrest : c.rest = first :: rest)
    (hblank : atBlank c.rest = false) (h : Terminated c.rest) :
    lexeme U first (c.extend back) = ((lexeme U first c).1, (lexeme U first c).2.extend back) := by
  have hstep := Cursor.step_extend hback (c := c) (by simp [hrest])
  have hterminated := terminated_step hrest hblank h
  have hdigit := Cursor.span_extend (local_atDigit back) hback (c := c.step)
    (.inr ⟨hterminated, fun _ => Scanner.atDigit_terminator⟩)
  have hword := Cursor.span_extend (local_atWordPart U back) hback (c := c.step)
    (.inr ⟨hterminated, fun _ => Scanner.atWordPart_terminator hU⟩)
  have hskip : (c.step.extend back).skip atInnerBlank = (c.step.skip atInnerBlank).extend back := by
    rw [Cursor.skip, Cursor.span_extend (local_atInnerBlank hback) hback
      (.inr ⟨hterminated, fun _ => Scanner.atInnerBlank_terminator⟩)]
    rfl
  have hbody := Cursor.span_extend (local_not_endsLine hback) hback (c := c.step.skip atInnerBlank)
    (.inr ⟨Scanner.terminated_skip (fun _ => Scanner.atInnerBlank_terminator) hterminated,
      fun x hx => by simpa [Piece.isTerminator] using hx⟩)
  have hbegins (ch : Char) : beginsInteger ch (c.step.extend back).rest =
      beginsInteger ch c.step.rest := by
    obtain ⟨x, xs, hx⟩ := List.exists_cons_of_ne_nil hterminated.ne_nil
    simp only [beginsInteger, Cursor.extend, hx]
    rw [local_atDigit back x xs]
  have hlocation : (c.extend back).location = c.location := rfl
  unfold lexeme integer comment word
  simp only [hstep, hdigit, hword, hskip, hbody, hbegins, hlocation]
  split
  · rfl
  · split
    · rfl
    · split
      · rfl
      · split <;> rfl

end Extension

namespace Scanner

/-- The scanner with a further part behind its input. -/
def extend (s : Scanner) (back : List Piece) : Scanner := ⟨s.cursor.extend back, s.layout⟩

section Extension

variable (hU : U.BlanksApart) (hback : Separate back)

include hU hback in
theorem content_extend (h : Terminated s.cursor.rest) :
    content U (s.extend back) = ((content U s).1, (content U s).2.extend back) := by
  have hskip : (s.cursor.extend back).skip atInnerBlank =
      (s.cursor.skip atInnerBlank).extend back := by
    rw [Cursor.skip, Cursor.span_extend (local_atInnerBlank hback) hback
      (.inr ⟨h, fun _ => atInnerBlank_terminator⟩)]
    rfl
  have hterminated := terminated_skip (fun _ => atInnerBlank_terminator) h
  have hstop := (skip_stops atInnerBlank s.cursor).resolve_left hterminated.ne_nil
  unfold content
  simp only [extend, hskip]
  generalize s.cursor.skip atInnerBlank = c at hterminated hstop ⊢
  obtain ⟨first, rest, hrest⟩ := List.exists_cons_of_ne_nil hterminated.ne_nil
  have hrest' : (c.extend back).rest = first :: rest ++ back := by rw [Cursor.extend, hrest]
  have hstep := Cursor.step_extend hback (c := c) (by simp [hrest])
  have hends : endsLine (first :: (rest ++ back)) = endsLine (first :: rest) :=
    local_endsLine hback first rest
  rw [hrest', hrest]
  simp only [List.cons_append, hends]
  split
  · rw [hstep]
    rfl
  · next hends =>
    rw [lexeme_extend hU hback hrest (by simpa [atInnerBlank, hrest, hends] using hstop) hterminated]

include hU hback in
theorem scan_extend (h : Terminated s.cursor.rest)
    (hgo : s.layout.atLineStart = true → (s.cursor.skip atBlank).rest ≠ []) :
    scan U (s.extend back) = ((scan U s).1, (scan U s).2.extend back) := by
  by_cases hstart : s.layout.atLineStart = true
  · have hne := hgo hstart
    have hskip := Cursor.skip_extend_of_stop (local_atBlank back) hback hne
    have happend := Cursor.span_append atBlank s.cursor
    have hterminated : Terminated (s.cursor.skip atBlank).rest := by
      rw [← happend] at h
      exact h.of_append hne
    unfold scan
    simp only [extend, if_pos hstart, hskip]
    generalize s.cursor.skip atBlank = c at hne hterminated ⊢
    obtain ⟨first, rest, hrest⟩ := List.exists_cons_of_ne_nil hne
    have hrest' : (c.extend back).rest = first :: (rest ++ back) := by
      rw [Cursor.extend, hrest, List.cons_append]
    have hcolumn : (c.extend back).location.column = c.location.column := rfl
    rw [hrest', hrest, hcolumn]
    simp only
    split
    · rfl
    · exact content_extend hU hback (s := ⟨c, s.layout.settled⟩) hterminated
  · have hextend : scan U (s.extend back) = content U (s.extend back) := if_neg hstart
    rw [hextend, scan, if_neg hstart]
    exact content_extend hU hback h

end Extension

theorem finish_lexeme (first : Piece) (c : Cursor) :
    (lexeme U first c).2.finish = c.finish := by
  unfold lexeme
  split
  · exact Cursor.finish_step c
  · split
    · exact (Cursor.finish_span _ _).trans (Cursor.finish_step c)
    · split
      · exact ((Cursor.finish_span _ _).trans (Cursor.finish_skip _ _)).trans (Cursor.finish_step c)
      · split
        · exact (Cursor.finish_span _ _).trans (Cursor.finish_step c)
        · exact Cursor.finish_step c

/-- What is left to be scanned of an input that ends with a line terminator. -/
def Ready (s : Scanner) : Prop :=
  Terminated s.cursor.rest ∨ s.cursor.rest = [] ∧ s.layout.atLineStart = true

/-- In front of a line terminator there is a token, on a line above the end of the input. -/
structure Keeps (s : Scanner) (t : Token) (s' : Scanner) : Prop where
  token : t.kind ≠ .eof
  ready : s'.Ready
  finish : s'.cursor.finish = s.cursor.finish
  line : t.location.line < s.cursor.finish.line

theorem line_lt_finish (h : Terminated c.rest) : c.location.line < c.finish.line := by
  have hpos := (past_of_terminated c.location h).2
  rw [Cursor.finish, line_past]
  omega

theorem content_keeps (hU : U.BlanksApart) (h : Terminated s.cursor.rest) :
    s.Keeps (content U s).1 (content U s).2 ∧ (content U s).2.layout.levels = s.layout.levels := by
  have hterminated := terminated_skip (fun _ => atInnerBlank_terminator) h
  have hstop := (skip_stops atInnerBlank s.cursor).resolve_left hterminated.ne_nil
  have hfinish := Cursor.finish_skip atInnerBlank s.cursor
  unfold content
  generalize s.cursor.skip atInnerBlank = c at hterminated hstop hfinish ⊢
  obtain ⟨first, rest, hrest⟩ := List.exists_cons_of_ne_nil hterminated.ne_nil
  have hline := line_lt_finish hterminated
  simp only [hrest]
  split
  · refine ⟨⟨by simp [bare], ?_, (Cursor.finish_step c).trans hfinish, hfinish ▸ hline⟩, rfl⟩
    have hstep := rest_step hrest
    by_cases hnil : rest = []
    · exact .inr ⟨hstep.trans hnil, rfl⟩
    · left
      rw [hrest] at hterminated
      show Terminated c.step.rest
      rw [hstep]
      exact hterminated.of_cons hnil
  · next hends =>
    have hblank : atBlank c.rest = false := by simpa [atInnerBlank, hrest, hends] using hstop
    refine ⟨⟨Kind.ne_eof_of_content (isLayout_lexeme U first c), .inl ?_,
      (finish_lexeme first c).trans hfinish, ?_⟩, rfl⟩
    · exact terminated_lexeme hU hrest hblank hterminated
    · rw [(line_lexeme_le first c).1, ← hfinish]
      exact hline

theorem scan_keeps (hU : U.BlanksApart) (h : Terminated s.cursor.rest)
    (hgo : s.layout.atLineStart = true → (s.cursor.skip atBlank).rest ≠ [])
    (hpos : ∀ w ∈ s.layout.levels, 0 < w) :
    s.Keeps (s.scan U).1 (s.scan U).2 ∧ ∀ w ∈ (s.scan U).2.layout.levels, 0 < w := by
  by_cases hstart : s.layout.atLineStart = true
  · have hne := hgo hstart
    have hfinish := Cursor.finish_skip atBlank s.cursor
    have hterminated : Terminated (s.cursor.skip atBlank).rest := by
      rw [← Cursor.span_append atBlank s.cursor] at h
      exact h.of_append hne
    cases hshift : s.layout.shift? ((s.cursor.skip atBlank).location.column - 1) with
    | none =>
      rw [scan_settled hstart hne hshift, scan, if_neg (by simp [Layout.settled])]
      obtain ⟨hkeeps, hlevels⟩ :=
        content_keeps (s := ⟨s.cursor.skip atBlank, s.layout.settled⟩) hU hterminated
      exact ⟨⟨hkeeps.token, hkeeps.ready, hkeeps.finish.trans hfinish, hfinish ▸ hkeeps.line⟩,
        by rwa [hlevels]⟩
    | some shifted =>
      obtain ⟨k, m⟩ := shifted
      rw [scan_shift hstart hne hshift]
      refine ⟨⟨?_, .inl hterminated, hfinish, hfinish ▸ line_lt_finish hterminated⟩, ?_⟩
      · rcases Layout.kind_of_shift hshift with rfl | rfl | rfl <;> simp [bare]
      · obtain ⟨rfl, hwide, rfl⟩ | ⟨top, outer, hlevels, -, hm⟩ := Layout.shift_cases hshift
        · exact List.forall_mem_cons.mpr ⟨Nat.zero_lt_of_lt hwide, hpos⟩
        · rw [hlevels, List.forall_mem_cons] at hpos
          rcases hm with ⟨-, -, rfl⟩ | ⟨-, -, rfl⟩ <;> exact hpos.2
  · obtain ⟨hkeeps, hlevels⟩ := content_keeps hU h
    rw [scan, if_neg hstart]
    exact ⟨hkeeps, by rwa [hlevels]⟩

/-- A line at the margin closes all levels. -/
theorem stream_closing (hblank : atBlank back = false) {l : Location} (hl : l.column = 1)
    {levels : List Nat} (hpos : ∀ w ∈ levels, 0 < w) :
    stream U ⟨⟨back, l⟩, ⟨levels, true⟩⟩ =
      ⟨(levels.map fun _ => bare .unindent l) ++ (stream U ⟨⟨back, l⟩, Layout.start⟩).tokens,
        (stream U ⟨⟨back, l⟩, Layout.start⟩).ending⟩ := by
  induction levels with
  | nil => rfl
  | cons w outer ih =>
    rw [List.forall_mem_cons] at hpos
    have hskip : (⟨back, l⟩ : Cursor).skip atBlank = ⟨back, l⟩ := skip_of_false hblank
    have hshift : Layout.shift? ⟨w :: outer, true⟩ 0 = some (.unindent, ⟨outer, true⟩) :=
      Layout.shift_back hpos.1 (.inl rfl)
    have hscan : scan U ⟨⟨back, l⟩, ⟨w :: outer, true⟩⟩ =
        (bare .unindent l, ⟨⟨back, l⟩, ⟨outer, true⟩⟩) := by
      simp only [scan, hskip, hl, if_true]
      cases back with
      | nil => rfl
      | cons x rest => simp only [Nat.sub_self, hshift]
    rw [stream_of_token hscan (by simp [bare]), ih hpos.2]
    rfl

/-- The tokens of an input that ends with a line terminator, alone and with a part behind it. -/
structure Joins (U : CharData) (back : List Piece) (s : Scanner) : Prop where
  ending : (s.stream U).ending = s.cursor.finish
  located : ∀ t ∈ (s.stream U).tokens,
    t.location = s.cursor.finish ∨ t.location.line < s.cursor.finish.line
  extend : (s.extend back).stream U =
    ⟨(s.stream U).tokens ++ (stream U ⟨⟨back, s.cursor.finish⟩, Layout.start⟩).tokens,
      (stream U ⟨⟨back, s.cursor.finish⟩, Layout.start⟩).ending⟩

theorem joins_of_blank (hback : Separate back) (hblank : atBlank back = false)
    (hpos : ∀ w ∈ s.layout.levels, 0 < w) (hcolumn : s.cursor.finish.column = 1)
    (hstart : s.layout.atLineStart = true) (hrest : (s.cursor.skip atBlank).rest = []) :
    s.Joins U back := by
  have hfinish := Cursor.finish_skip atBlank s.cursor
  have hskip : (s.cursor.extend back).skip atBlank = (s.cursor.skip atBlank).extend back := by
    rw [Cursor.skip, Cursor.span_extend (local_atBlank back) hback (.inl hblank)]
    rfl
  have hscan := stream_congr (scan_blank (U := U) (s := s.extend back) hstart)
  have halone := stream_congr (scan_blank (U := U) hstart)
  simp only [extend, hskip] at hscan
  generalize s.cursor.skip atBlank = c at hrest hfinish hscan halone
  obtain ⟨rest, l⟩ := c
  obtain rfl : rest = [] := hrest
  replace hfinish : l = s.cursor.finish := hfinish
  subst hfinish
  obtain ⟨cursor, levels, start⟩ := s
  obtain rfl : start = true := hstart
  rw [stream_of_end] at halone
  refine ⟨by rw [halone], ?_, ?_⟩
  · rw [halone]
    simp [bare]
  · rw [extend, hscan, halone]
    exact stream_closing hblank hcolumn hpos

theorem joins (hU : U.BlanksApart) (hback : Separate back) (hblank : atBlank back = false)
    (s : Scanner) (hready : s.Ready) (hpos : ∀ w ∈ s.layout.levels, 0 < w)
    (hcolumn : s.cursor.finish.column = 1) : s.Joins U back := by
  by_cases hend : s.layout.atLineStart = true ∧ (s.cursor.skip atBlank).rest = []
  · exact joins_of_blank hback hblank hpos hcolumn hend.1 hend.2
  have hgo : s.layout.atLineStart = true → (s.cursor.skip atBlank).rest ≠ [] := by
    simpa using hend
  have hterminated : Terminated s.cursor.rest := by
    refine hready.resolve_right ?_
    rintro ⟨hnil, hstart⟩
    refine hgo hstart ?_
    rw [skip_of_false (by rw [hnil]; rfl), hnil]
  obtain ⟨hkeeps, hpos'⟩ := scan_keeps hU hterminated hgo hpos
  have hlt := weight_scan U hkeeps.token
  have hjoins := joins hU hback hblank (s.scan U).2 hkeeps.ready hpos' (hkeeps.finish ▸ hcolumn)
  have hscan := scan_extend hU hback hterminated hgo
  have hstream := stream_of_token (s := s) rfl hkeeps.token
  refine ⟨?_, ?_, ?_⟩
  · rw [hstream, ← hkeeps.finish]
    exact hjoins.ending
  · rw [hstream, List.forall_mem_cons, ← hkeeps.finish]
    exact ⟨.inr (hkeeps.finish ▸ hkeeps.line), hjoins.located⟩
  · rw [stream_of_token hscan hkeeps.token, hjoins.extend, hstream, hkeeps.finish]
    rfl
termination_by s.weight

end Scanner

namespace Stream

/-- A file that does not begin with white space begins with a token of its first line. -/
theorem ofPieces_margin (hblank : atBlank back = false) :
    back = [] ∧ ofPieces U back = ⟨[], Location.start⟩ ∨
      ∃ t ts, (ofPieces U back).tokens = t :: ts ∧ t.kind.isLayout = false := by
  cases back with
  | nil => exact .inl ⟨rfl, Scanner.stream_of_end⟩
  | cons first rest =>
    have hskip : (Cursor.start (first :: rest)).skip atBlank = Cursor.start (first :: rest) :=
      Scanner.skip_of_false hblank
    have hsettled := Scanner.scan_settled (U := U) (s := Scanner.start (first :: rest)) rfl
      (by rw [Scanner.start, hskip]; simp [Cursor.start])
      (by rw [Scanner.start, hskip]; rfl)
    have hlexeme := Scanner.scan_lexeme (U := U)
      (s := ⟨Cursor.start (first :: rest), Layout.start.settled⟩) rfl rfl hblank
    have hkind := isLayout_lexeme U first (Cursor.start (first :: rest))
    rw [Scanner.start, hskip, hlexeme] at hsettled
    rw [ofPieces, ← Scanner.stream, Scanner.start,
      Scanner.stream_of_token hsettled (Kind.ne_eof_of_content hkind)]
    exact .inr ⟨_, _, rfl, hkind⟩

theorem ofPieces_append {front : List Piece} (hU : U.BlanksApart) (hfront : Terminated front)
    (hblank : atBlank back = false) :
    ofPieces U (front ++ back) =
        ⟨(ofPieces U front).tokens ++
          (ofPieces U back).tokens.map (Token.relocate (Location.down (terminators front))),
          (ofPieces U back).ending.down (terminators front)⟩ ∧
      (ofPieces U front).ending = ⟨terminators front + 1, 1⟩ ∧
      ∀ t ∈ (ofPieces U front).tokens,
        t.location = ⟨terminators front + 1, 1⟩ ∨ t.location.line ≤ terminators front := by
  have hback : Separate back := by
    intro hhead
    obtain ⟨rest, rfl⟩ : ∃ rest, back = .char '\n' :: rest := by
      cases back with
      | nil => cases hhead
      | cons x rest => exact ⟨rest, by simpa using hhead⟩
    cases hblank
  have hfinish : (Scanner.start front).cursor.finish = ⟨terminators front + 1, 1⟩ := by
    have hpast := (past_of_terminated Location.start hfront).1
    rw [Nat.add_comm]
    exact hpast
  have hjoins := Scanner.joins hU hback hblank (Scanner.start front) (.inl hfront)
    (by simp [Scanner.start, Layout.start]) (by rw [hfinish])
  have hextend := hjoins.extend
  rw [hfinish, Scanner.stream_start_down] at hextend
  refine ⟨hextend, hjoins.ending.trans hfinish, fun t ht => ?_⟩
  have hlocated := hjoins.located t ht
  rw [hfinish] at hlocated
  exact hlocated.imp_right Nat.le_of_lt_succ

end Stream

end FirSyntax.Token
