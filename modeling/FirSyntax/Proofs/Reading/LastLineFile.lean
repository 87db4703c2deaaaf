import FirSyntax.Proofs.Reading.FileSoundness
import FirSyntax.Proofs.Reading.LastLine

/-!
# Reading a file to the end of its last line

Recovery, blocks and whole files end alike whether or not the last line is ended. What is passed over,
and whether a block follows a header, is told behind the end of the line, where both readings see the
same levels closed.
-/
namespace FirSyntax

open Token Grammar

namespace Token.Tail

variable {e : Tail} {t : Token} {ts : List Token} {r r' s : Reading} {n : Nat}

namespace Behind

theorem current (h : Behind e n r r') :
    r.current = bare (if n = 0 then .eof else .unindent) e.last :=
  Reading.current_of_closing h.tokens h.ending

theorem current' (h : Behind e n r r') :
    r'.current = bare (if n = 0 then .eof else .unindent) e.last.nextLine :=
  Reading.current_of_closing h.tokens' h.ending'

theorem kind (h : Behind e n r r') : r'.current.kind = r.current.kind := by
  rw [h.current, h.current']
  rfl

theorem unindent (h : Behind e (n + 1) r r') : r.current.kind = .unindent := by
  rw [h.current]
  rfl

theorem eof (h : Behind e 0 r r') : r.current.kind = .eof := by
  rw [h.current]
  rfl

theorem advance (h : Behind e (n + 1) r r') : Behind e n r.advance r'.advance := by
  have hne : r.current.kind ≠ .eof := by simp [h.unindent]
  have hne' : r'.current.kind ≠ .eof := h.kind ▸ hne
  refine ⟨?_, ?_, ?_, ?_, ?_, by simpa using h.reports⟩
  · rw [Reading.tokens_advance hne, h.tokens]
    rfl
  · rw [Reading.tokens_advance hne', h.tokens']
    rfl
  · rw [Reading.advance_eq hne]
    exact h.ending
  · rw [Reading.advance_eq hne']
    exact h.ending'
  · rw [Reading.depth_advance hne, Reading.depth_advance hne', h.kind, h.depth]

theorem skipLine (h : Behind e n r r') (depth : Nat) :
    Along e (r.skipLine depth) (r'.skipLine depth) := by
  induction n generalizing r r' with
  | zero =>
    rw [Reading.skipLine_eof h.eof, Reading.skipLine_eof (h.kind.trans h.eof)]
    exact .behind h
  | succ n ih =>
    have hnext := h.advance
    rw [Reading.skipLine_unindent h.unindent, Reading.skipLine_unindent (h.kind.trans h.unindent),
      h.depth, hnext.depth]
    split
    · exact .behind h
    · split
      · exact .behind hnext
      · exact ih hnext

end Behind

namespace Along

theorem kind (h : Along e r r') : r'.current.kind = r.current.kind := by
  cases h with
  | ahead h => exact h.kind
  | behind h => exact h.kind

theorem depth (h : Along e r r') : r'.depth = r.depth := by
  cases h with
  | ahead h => exact h.depth
  | behind h => exact h.depth

theorem reports (h : Along e r r') :
    List.Forall₂ (Diagnostic.Corresponds e.last) r.reports r'.reports := by
  cases h with
  | ahead h => exact h.reports.imp fun _ _ => .inner
  | behind h => exact h.reports

/-- In front of anything but the levels closed in the end. -/
theorem exists_ahead (h : Along e r r') (hne : r.current.kind ≠ .eof)
    (hunindent : r.current.kind ≠ .unindent) : ∃ t ts, Ahead e (t :: ts) r r' := by
  cases h with
  | ahead h => exact ⟨_, _, h⟩
  | @behind n h =>
    cases n with
    | zero => exact absurd h.eof hne
    | succ n => exact absurd h.unindent hunindent

theorem advance (h : Along e r r') (hlayout : r.current.kind.isLayout = true) :
    Along e r.advance r'.advance := by
  cases h with
  | ahead h => exact h.advance_layout hlayout
  | @behind n h =>
    cases n with
    | zero =>
      rw [Reading.advance, if_pos h.eof, Reading.advance, if_pos (h.kind.trans h.eof)]
      exact .behind h
    | succ n => exact .behind h.advance

theorem skipStray (h : Along e r r') (depth : Nat) :
    Along e (r.skipStray depth) (r'.skipStray depth) := by
  unfold Reading.skipStray
  simp only [h.depth, h.kind]
  split
  · next hstray => exact h.advance (by rw [hstray.2]; rfl)
  · exact h

/-- A block is missed by both readings, at the end of the input or in front of the next line. -/
theorem lacksBlock (h : Along e r r') (hearly : ∀ d ∈ r.reports, d.location < e.last)
    (hearly' : ∀ d ∈ r'.reports, d.location < e.last) :
    Along e (r.reportExpected (.token .indent)) (r'.reportExpected (.token .indent)) := by
  cases h with
  | ahead h => exact .ahead (h.reportExpected _)
  | @behind n h =>
    have hlt : e.last < e.last.nextLine := .inl (Nat.lt_succ_self _)
    have hnone := Reading.head?_ne_of_forall fun d hd => ne_of_lt (hearly d hd)
    have hnone' := Reading.head?_ne_of_forall fun d hd => ne_of_lt (lt_trans (hearly' d hd) hlt)
    rw [Reading.reportExpected, Reading.reportExpected, h.current, h.current']
    refine .behind (n := n) ⟨?_, ?_, ?_, ?_, ?_, ?_⟩
    · simpa using h.tokens
    · simpa using h.tokens'
    · simpa using h.ending
    · simpa using h.ending'
    · simpa using h.depth
    · exact Reading.forall₂_report h.reports (iff_of_false hnone' hnone)
        (.block ⟨_, rfl⟩ ⟨_, rfl⟩)

end Along

/-- Levels that are closed behind a line end are passed over as without that end. -/
theorem Behind.skipLine_newline (h : Behind e n r s) (hs : s = r'.advance)
    (hnewline : r'.current.kind = .newline) (depth : Nat) :
    r'.skipLine depth = s.skipLine depth := by
  subst hs
  have hdepth : r'.advance.depth = r'.depth := by
    rw [Reading.depth_advance (by simp [hnewline]), hnewline]
    rfl
  rw [Reading.skipLine_newline hnewline]
  split
  · next hstop =>
    cases n with
    | zero => rw [Reading.skipLine_eof (h.kind.trans h.eof)]
    | succ n =>
      rw [Reading.skipLine_unindent (h.kind.trans h.unindent), if_pos (by omega)]
  · rfl

/-- Whatever is passed over, both readings stop at the same place, or behind the last line. -/
theorem Ahead.skipLine (h : Ahead e ts r r') (depth : Nat) :
    Along e (r.skipLine depth) (r'.skipLine depth) := by
  induction ts generalizing r r' with
  | nil =>
    cases hwritten : e.written with
    | false => exact (h.behind hwritten).skipLine depth
    | true =>
      have hbehind := h.behind_newline hwritten
      have hnewline : r'.current.kind = .newline := by rw [h.current_newline hwritten]; rfl
      rw [hbehind.skipLine_newline rfl hnewline]
      exact hbehind.skipLine depth
  | cons t ts ih =>
    have hkind := h.kind
    have hnext := h.advance
    by_cases hnewline : r.current.kind = .newline
    · have hpast := h.advance_layout (by rw [hnewline]; rfl)
      rw [Reading.skipLine_newline hnewline, Reading.skipLine_newline (hkind.trans hnewline), h.depth,
        hpast.kind]
      split
      · exact hpast
      · exact ih hnext
    by_cases hunindent : r.current.kind = .unindent
    · have hpast := h.advance_layout (by rw [hunindent]; rfl)
      rw [Reading.skipLine_unindent hunindent, Reading.skipLine_unindent (hkind.trans hunindent),
        h.depth, hnext.depth]
      split
      · exact .ahead h
      · split
        · exact hpast
        · exact ih hnext
    by_cases hmismatch : r.current.kind = .indentMismatch
    · rw [Reading.skipLine_mismatch hmismatch, Reading.skipLine_mismatch (hkind.trans hmismatch),
        h.depth]
      split
      · exact .ahead h
      · exact ih (h.reportExpected _).advance
    · rw [Reading.skipLine_further h.ne_eof hnewline hunindent hmismatch,
        Reading.skipLine_further (r := r') h.ne_eof' (hkind ▸ hnewline) (hkind ▸ hunindent)
          (hkind ▸ hmismatch)]
      exact ih hnext

end Token.Tail

/-- A header that is read reports nothing. -/
theorem Header.reports_read {first : Token} (hfirst : first.kind = .keyword .proc) {r after : Reading}
    {header : Header} (h : (Header.read first.location r).result = (some header, after)) :
    after.reports = r.reports := by
  cases (Header.read_finishes hfirst r).of_result h with
  | read hreads _ hends => rw [hends.reports, hreads.quiet True.intro]

namespace Statement

open Token.Tail

variable {e : Tail} {r r' s : Reading} {t : Token} {ts : List Token} {depth : Nat}
  {added : Option Statement}

theorem map_relocate_id (added : Option Statement) : added.map (relocate id) = added := by
  rw [funext relocate_id, Option.map_id_fun']
  rfl

theorem mapAll_relocate_id (body : List Statement) : body.map (relocate id) = body := by
  rw [funext relocate_id, List.map_id']

theorem skipMismatch_along (h : Ahead e (t :: ts) r r') :
    Along e (skipMismatch r) (skipMismatch r') := by
  have hnext := (h.reportExpected (.token .unindent)).advance
  unfold skipMismatch
  dsimp only
  rw [hnext.depth]
  exact hnext.skipLine _

theorem skipUnknown_along (cause : Cause) (h : Ahead e (t :: ts) r r') (depth : Nat) :
    Along e (skipUnknown cause depth r) (skipUnknown cause depth r') :=
  (h.reportHere cause).advance.skipLine depth

/-- What is said of the statement that a token opens: both readings read it alike. -/
def ReadsAlike (e : Tail) (lead : Lead) (r r' : Reading) : Prop :=
  (read lead r.current r.advance).Lands e.bond (relocate id) (read lead r'.current r'.advance)

/-- Where a statement is read by one reading, the other one reads the same. -/
theorem ReadsAlike.statement {lead : Lead} (h : ReadsAlike e lead r r') {statement : Statement}
    {after : Reading} (hread : (read lead r.current r.advance).result = (some statement, after)) :
    ∃ after', (read lead r'.current r'.advance).result = (some statement, after') ∧
      Along e after after' := by
  obtain ⟨after', hread', hlanded, -⟩ := h.exists_result hread
  rw [map_relocate_id] at hread'
  exact ⟨after', hread', hlanded statement rfl⟩

/-- Where a line is given up by one reading, it is given up and passed over by the other. -/
theorem ReadsAlike.failure {lead : Lead} (h : ReadsAlike e lead r r') {after : Reading}
    (hread : (read lead r.current r.advance).result = (none, after)) (depth : Nat) :
    ∃ after', (read lead r'.current r'.advance).result = (none, after') ∧
      Along e (after.skipLine depth) (after'.skipLine depth) := by
  obtain ⟨after', hread', -, hfailed⟩ := h.exists_result hread
  obtain ⟨ts, hinside⟩ := hfailed rfl
  exact ⟨after', hread', hinside.toAhead.skipLine depth⟩

/-- Where a block ends for one reading it ends for the other. -/
theorem BlockEnd.along (hend : BlockEnd depth r s) (h : Along e r r') :
    ∃ s', BlockEnd depth r' s' ∧ Along e s s' := by
  have hkind := h.kind
  cases hend with
  | eof heof => exact ⟨r', .eof (hkind.trans heof), h⟩
  | unindent hunindent =>
    exact ⟨_, .unindent (hkind.trans hunindent), h.advance (by rw [hunindent]; rfl)⟩
  | mismatch hmismatch hbelow =>
    obtain ⟨t, ts, hahead⟩ := h.exists_ahead (by simp [hmismatch]) (by simp [hmismatch])
    have hskip := skipMismatch_along hahead
    exact ⟨_, .mismatch (hkind.trans hmismatch) (hskip.depth ▸ hbelow), hskip⟩

theorem BlockTurn.ne_unindent (h : BlockTurn depth r added s) : r.current.kind ≠ .unindent := by
  cases h with
  | newline hk | mismatch hk => simp [hk]
  | statement hlead | failure hlead => exact (Lead.ne_layout_of_inBlock hlead).2.2.2
  | unknown _ _ _ _ hunindent => exact hunindent

/-- A turn in a block of one reading is a turn of the other, given as much for the statement that it
reads. -/
theorem BlockTurn.along_of_reads (hturn : BlockTurn depth r added s) (h : Ahead e (t :: ts) r r')
    (hreads : ∀ lead : Lead, lead.Opens .block r.current → ReadsAlike e lead r r') :
    ∃ s', BlockTurn depth r' added s' ∧ Along e s s' := by
  have hkind := h.kind
  cases hturn with
  | newline hnewline =>
    exact ⟨_, .newline (hkind.trans hnewline), h.advance_layout (by rw [hnewline]; rfl)⟩
  | mismatch hmismatch hnot =>
    have hskip := skipMismatch_along h
    exact ⟨_, .mismatch (hkind.trans hmismatch) (hskip.depth ▸ hnot), hskip⟩
  | @statement lead statement after hlead hread =>
    obtain ⟨s', hread', hs⟩ := (hreads lead (Lead.opens_of_inBlock hlead)).statement hread
    exact ⟨s', .statement (hkind ▸ hlead) hread', hs⟩
  | @failure lead after hlead hread =>
    obtain ⟨s', hread', hs⟩ := (hreads lead (Lead.opens_of_inBlock hlead)).failure hread depth
    exact ⟨_, .failure (hkind ▸ hlead) hread', hs⟩
  | unknown hlead hne hnewline hmismatch hunindent =>
    exact ⟨_, .unknown (hkind ▸ hlead) (hkind ▸ hne) (hkind ▸ hnewline) (hkind ▸ hmismatch)
      (hkind ▸ hunindent), skipUnknown_along .noStatement h depth⟩

mutual

/-- A statement is read alike, as long as nothing was reported at the end. -/
theorem read_along {lead : Lead} {place : Place} {first : Token} (hfirst : lead.Opens place first)
    (r r' : Reading) {ts : List Token} (h : Inside e ts r r')
    (hearly : ∀ d ∈ r.reports, d.location < e.last)
    (hearly' : ∀ d ∈ r'.reports, d.location < e.last) :
    (read lead first r).Lands e.bond (relocate id) (read lead first r') := by
  by_cases hlead : lead = .procedure
  · subst hlead
    refine read_procedure_lands (B := e.bond) first r r' ⟨ts, h⟩
      fun header after after' hr hr' hpast => ?_
    have hbounded : after.remaining ≤ r.remaining := Step.remaining_of_result hr
    refine ⟨by rw [Along.kind hpast], fun hindent => ?_, fun _ => ?_⟩
    · have hlt := Reading.remaining_advance_lt (r := after) (by simp [hindent])
      have hnext := Along.advance hpast (by rw [hindent]; rfl)
      rw [hnext.depth]
      obtain ⟨hbody, hblock⟩ :=
        readBlock_along after.advance.depth after.advance after'.advance hnext
      exact ⟨hbody.trans (mapAll_relocate_id _).symm, hblock⟩
    · exact Along.lacksBlock hpast (by rwa [Header.reports_read hfirst hr])
        (by rwa [Header.reports_read hfirst hr'])
  · exact read_lands (B := e.bond) hlead first r r' ⟨ts, h⟩
termination_by r.remaining
decreasing_by omega

/-- A block is the same for both readings. -/
theorem readBlock_along (depth : Nat) (r r' : Reading) (h : Along e r r') :
    (readBlock depth r').value = (readBlock depth r).value ∧
      Along e (readBlock depth r).after (readBlock depth r').after := by
  rcases exists_blockTurn depth r with ⟨s, hstop⟩ | ⟨added, s, hturn⟩
  · obtain ⟨s', hstop', hs⟩ := hstop.along h
    obtain ⟨hvalue, hafter⟩ := Prod.mk.inj hstop.result
    obtain ⟨hvalue', hafter'⟩ := Prod.mk.inj hstop'.result
    rw [hvalue, hvalue', hafter, hafter']
    exact ⟨rfl, hs⟩
  · have hlt := hturn.remaining_lt
    have hsmall := Reading.remaining_advance_lt hturn.ne_eof
    obtain ⟨t, ts, hahead⟩ := h.exists_ahead hturn.ne_eof hturn.ne_unindent
    obtain ⟨s', hturn', hs⟩ := hturn.along_of_reads hahead fun lead hopens => by
      rw [ReadsAlike, hahead.current_eq]
      exact read_along hopens r.advance r'.advance (hahead.advance_content hopens.isLayout)
        (by simpa using hahead.early_head) (by simpa using hahead.early_head')
    obtain ⟨hvalue, hafter⟩ := Prod.mk.inj hturn.result
    obtain ⟨hvalue', hafter'⟩ := Prod.mk.inj hturn'.result
    obtain ⟨hrest, hblock⟩ := readBlock_along depth s s' hs
    rw [hvalue, hvalue', hafter, hafter', hrest]
    exact ⟨rfl, hblock⟩
termination_by r.remaining
decreasing_by all_goals omega

end

/-- A turn at the top level for one reading is a turn for the other. -/
theorem FileTurn.along (hturn : FileTurn r added s) (h : Along e r r')
    (hlaid : r.LaidAs true .lineStart) (hlevel : r.AtLevel 0) :
    ∃ s', FileTurn r' added s' ∧ Along e s s' := by
  have hkind := h.kind
  have hunindent : r.current.kind ≠ .unindent := by
    intro hunindent
    have := (hlaid.unindent hunindent).2
    have := hlevel.of_depth (by simp [hunindent])
    omega
  obtain ⟨t, ts, hahead⟩ := h.exists_ahead hturn.ne_eof hunindent
  have htop : Lead.atTop? r' = Lead.atTop? r :=
    Lead.atTop_congr (B := e.bond) hturn.ne_eof hkind (by rw [hahead.current_eq])
      fun hidentifier => ⟨ts, hahead.advance_content (by rw [hidentifier]; rfl)⟩
  have hreads {lead : Lead} (hlead : Lead.atTop? r = some lead) : ReadsAlike e lead r r' := by
    have hopens := Lead.opens_of_atTop hlead
    rw [ReadsAlike, hahead.current_eq]
    exact read_along hopens r.advance r'.advance (hahead.advance_content hopens.isLayout)
      (by simpa using hahead.early_head) (by simpa using hahead.early_head')
  cases hturn with
  | newline hnewline =>
    exact ⟨_, .newline (hkind.trans hnewline), h.advance (by rw [hnewline]; rfl)⟩
  | mismatch hmismatch => exact ⟨_, .mismatch (hkind.trans hmismatch), skipMismatch_along hahead⟩
  | unindent hk => exact absurd hk hunindent
  | @statement lead statement after hlead hread =>
    obtain ⟨s', hread', hs⟩ := (hreads hlead).statement hread
    exact ⟨_, .statement (htop.trans hlead) hread', h.depth ▸ hs.skipStray r.depth⟩
  | @failure lead after hlead hread =>
    obtain ⟨s', hread', hs⟩ := (hreads hlead).failure hread r.depth
    refine ⟨_, .failure (htop.trans hlead) hread', ?_⟩
    rw [h.depth]
    exact hs.skipStray r.depth
  | unknown hlead hne hnewline hmismatch hunindent =>
    refine ⟨_, .unknown (htop.trans hlead) (hkind ▸ hne) (hkind ▸ hnewline) (hkind ▸ hmismatch)
      (hkind ▸ hunindent), ?_⟩
    rw [h.depth]
    exact (skipUnknown_along .notAtTopLevel hahead r.depth).skipStray r.depth

/-- A file is the same for both readings, and what they report corresponds. -/
theorem readAllFrom_along (done : List Statement) (r r' : Reading) (h : Along e r r')
    (hlaid : r.LaidAs true .lineStart) (hlevel : r.AtLevel 0) :
    (readAllFrom done r').1 = (readAllFrom done r).1 ∧
      List.Forall₂ (Diagnostic.Corresponds e.last) (readAllFrom done r).2.reports
        (readAllFrom done r').2.reports := by
  by_cases heof : r.current.kind = .eof
  · rw [readAllFrom_eof done heof, readAllFrom_eof done (h.kind.trans heof)]
    exact ⟨rfl, h.reports⟩
  · obtain ⟨added, s, hturn⟩ := exists_fileTurn heof
    have hlt := hturn.remaining_lt
    have hsound := hturn.sound hlaid hlevel
    obtain ⟨s', hturn', hs⟩ := hturn.along h hlaid hlevel
    rw [hturn.readAllFrom_eq, hturn'.readAllFrom_eq]
    exact readAllFrom_along (added.toList ++ done) s s' hs hsound.laidAs hsound.level
termination_by r.remaining

end Statement

end FirSyntax
