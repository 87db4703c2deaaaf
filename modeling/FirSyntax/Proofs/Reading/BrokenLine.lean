import FirSyntax.Proofs.Reading.Runs

/-!
# A line of any content

Whatever the tokens of a line are, its turn consumes them up to the end of the line and goes no
further: a statement that is read ends with the line, and behind a fault the rest of the line is
passed over. What is reported lies on the line, with the exception of the indentation that is missed
behind a header.
-/
namespace FirSyntax

open Token Grammar

variable {r s mid : Reading} {line : Nat} {t : Token} {fs us tail after : List Token}

namespace Reading

/-- `r` stands in a line whose further tokens are `fs`; `tail` begins with the end of the line and
`after` behind it. -/
structure OnLine (r : Reading) (line : Nat) (fs tail after : List Token) : Prop where
  tokens : r.stream.tokens = fs ++ tail
  inside : ∀ t ∈ fs, t.kind.isLayout = false ∧ t.location.line = line
  ends : LineBreak line r.stream.ending tail after

theorem isLayout_of_atLineEnd (h : r.atLineEnd = true) : r.current.kind.isLayout = true := by
  unfold atLineEnd at h
  split at h
  · next hk => rw [hk]; rfl
  · next hk => rw [hk]; rfl
  · next hk => rw [hk]; rfl
  · cases h

theorem reports_report_of_nil (h : r.reports = []) (l : Location) (c : Cause) :
    (r.report l c).reports = [⟨c, l⟩] := by
  simp [report, h]

/-! ## Passing over a line -/

theorem skipLine_of_content (h : r.current.kind.isLayout = false) (depth : Nat) :
    r.skipLine depth = r.advance.skipLine depth := by
  refine skipLine_further (Kind.ne_eof_of_content h) ?_ ?_ ?_ depth
  all_goals
    intro hk
    simp [hk, Kind.isLayout] at h

theorem skipLine_of_newline (h : r.current.kind = .newline)
    (hindent : r.advance.current.kind ≠ .indent) : r.skipLine r.depth = r.advance := by
  rw [skipLine_newline h, if_pos ⟨rfl, hindent⟩]

theorem skipLine_of_closing (h : r.current.kind = .unindent ∨ r.current.kind = .eof) :
    r.skipLine r.depth = r := by
  rcases h with h | h
  · rw [skipLine_unindent h, if_pos (Nat.le_refl _)]
  · exact skipLine_eof h _

namespace OnLine

theorem report (h : r.OnLine line fs tail after) (l : Location) (c : Cause) :
    (r.report l c).OnLine line fs tail after :=
  ⟨by rw [stream_report, h.tokens], h.inside, by rw [stream_report]; exact h.ends⟩

theorem advance (h : r.OnLine line (t :: fs) tail after) :
    r.advance.OnLine line fs tail after ∧ r.advance.depth = r.depth := by
  have hcurrent : r.current = t := current_of_tokens h.tokens
  have hcontent : r.current.kind.isLayout = false := hcurrent ▸ (h.inside t List.mem_cons_self).1
  have hpass := Passes.advance hcontent
  refine ⟨⟨?_, (List.forall_mem_cons.mp h.inside).2, hpass.ending ▸ h.ends⟩, hpass.depth⟩
  rw [tokens_advance (Kind.ne_eof_of_content hcontent), h.tokens]
  rfl

theorem current_line (h : r.OnLine line fs tail after) : r.current.location.line = line := by
  obtain ⟨htokens, hinside, hends⟩ := h
  cases fs with
  | cons t fs =>
    rw [current_of_tokens htokens]
    exact (hinside t List.mem_cons_self).2
  | nil =>
    cases hends with
    | newline _ hline =>
      rw [current_of_tokens htokens]
      exact hline
    | closing hall hending =>
      cases tail with
      | nil =>
        rw [current_of_nil htokens]
        exact hending
      | cons u us =>
        rw [current_of_tokens htokens]
        exact (hall u List.mem_cons_self).2

/-- A passage goes over tokens of the line only. -/
theorem passes (h : r.OnLine line fs tail after) (hpass : r.Passes us s) :
    ∃ vs, fs = us ++ vs ∧ s.OnLine line vs tail after := by
  have hends : LineBreak line s.stream.ending tail after := hpass.ending ▸ h.ends
  rcases List.append_eq_append_iff.mp (h.tokens.symm.trans hpass.tokens) with
    ⟨ws, rfl, htail⟩ | ⟨vs, rfl, htokens⟩
  · cases ws with
    | nil => exact ⟨[], by simp, htail.symm, by simp, hends⟩
    | cons w ws =>
      have hcontent := hpass.content w (by simp)
      rw [htail] at hends
      rw [hends.isLayout] at hcontent
      cases hcontent
  · exact ⟨vs, rfl, htokens, fun t ht => h.inside t (List.mem_append_right us ht), hends⟩

/-- What is reported on the way lies on the line. -/
theorem reported (h : r.OnLine line fs tail after) (hclean : r.reports = [])
    (hpass : r.Passes us s) : ∀ d ∈ s.reports, d.location.line = line := by
  obtain ⟨vs, rfl, hs⟩ := h.passes hpass
  obtain ⟨ts, htokens, -, -, hreported⟩ := hpass.reaches.exists_consumed
  obtain rfl : us = ts := hpass.eq_of_tokens htokens rfl
  intro d hd
  rcases hreported d hd with hd | ⟨t, ht, hlocation⟩
  · rw [hclean] at hd
    cases hd
  · rw [hlocation]
    rcases List.mem_append.mp ht with ht | ht
    · exact (h.inside t (List.mem_append_left vs ht)).2
    · rw [List.mem_singleton.mp ht]
      exact hs.current_line

/-- Where a line has ended nothing of it is left. -/
theorem end_of_line (h : r.OnLine line fs tail after) (hends : r.Ends s) :
    fs = [] ∧ s.stream.tokens = after := by
  obtain ⟨hend, rfl⟩ := hends
  have hlayout := isLayout_of_atLineEnd hend
  obtain ⟨htokens, hinside, hends⟩ := h
  cases fs with
  | cons t fs =>
    rw [current_of_tokens htokens, (hinside t List.mem_cons_self).1] at hlayout
    cases hlayout
  | nil =>
    refine ⟨rfl, ?_⟩
    cases hends with
    | @newline u _ hu =>
      have hkind : r.current.kind = .newline := by rw [current_of_tokens htokens, hu]
      rw [if_pos hkind, tokens_advance (by simp [hkind]), htokens]
      rfl
    | closing hall =>
      have hkind : r.current.kind ≠ .newline := by
        rw [kind_current, htokens]
        cases tail with
        | nil => simp
        | cons u us => simp [(hall u List.mem_cons_self).1]
      rw [if_neg hkind]
      exact htokens

/-- The rest of a line is passed over without a further diagnostic. -/
theorem skipLine (h : r.OnLine line fs tail after) (hindent : leading after ≠ .indent) :
    (r.skipLine r.depth).stream.tokens = after ∧ (r.skipLine r.depth).depth = r.depth ∧
      (r.skipLine r.depth).reports = r.reports := by
  induction fs generalizing r with
  | cons t fs ih =>
    have hcontent : r.current.kind.isLayout = false := by
      rw [current_of_tokens h.tokens]
      exact (h.inside t List.mem_cons_self).1
    obtain ⟨hadvance, hdepth⟩ := h.advance
    obtain ⟨htokens, hsame, hreports⟩ := ih hadvance
    rw [hdepth] at htokens hsame hreports
    rw [skipLine_of_content hcontent]
    exact ⟨htokens, hsame, hreports.trans (reports_advance r)⟩
  | nil =>
    obtain ⟨htokens, -, hends⟩ := h
    cases hends with
    | @newline u _ hu =>
      have hkind : r.current.kind = .newline := by rw [current_of_tokens htokens, hu]
      have hne : r.current.kind ≠ .eof := by simp [hkind]
      have hafter : r.advance.stream.tokens = after := by
        rw [tokens_advance hne, htokens]
        rfl
      rw [skipLine_of_newline hkind (by rwa [kind_current, hafter])]
      refine ⟨hafter, ?_, reports_advance r⟩
      rw [depth_advance hne, hkind]
      rfl
    | closing hall =>
      have hkind : r.current.kind = .unindent ∨ r.current.kind = .eof := by
        rw [kind_current, htokens]
        cases tail with
        | nil => exact .inr rfl
        | cons u us => exact .inl (hall u List.mem_cons_self).1
      rw [skipLine_of_closing hkind]
      exact ⟨htokens, rfl, rfl⟩

end OnLine

end Reading

namespace Statement

open Reading

variable {place : Place} {lead : Lead} {statement : Statement} {others : List Token}

/-! ## The turn of a line -/

/-- A line holds the tokens `fs`. What is read of it is located at its first token and reported on
the line, unless it is a complete header: then that is read as a procedure without a body, and the
only diagnostic asks for indentation at the token behind the line. -/
inductive Confined (stream : Stream) (location : Location) (fs tail after : List Token) :
    Option Statement → List Diagnostic → Prop where
  | onLine {added reports} : (∀ s ∈ added, s.location = location) →
      (∀ d ∈ reports, d.location.line = location.line) →
      Confined stream location fs tail after added reports
  | headerAlone {hs cs newline header} : fs = hs ++ cs → IsHeading hs header →
      IsRemark cs header.comment → header.location = location → tail = newline :: after →
      newline.kind = .newline →
      Confined stream location fs tail after (some (.procedure header []))
        [⟨.expected (.token .indent) (Stream.head ⟨after, stream.ending⟩),
          (Stream.head ⟨after, stream.ending⟩).location⟩]

theorem location_of_isLine {strict : Bool} {comment : Option String}
    (h : IsLine strict place (t :: fs) comment statement) : statement.location = t.location := by
  cases h <;> rfl

/-- A statement of one line is read to the end of the line. -/
theorem read_line_onLine (h : r.OnLine line (t :: others) tail after)
    (hopens : lead.Opens place r.current) (hlead : lead ≠ .procedure)
    (hread : (read lead r.current r.advance).result = (some statement, s)) :
    s.stream.tokens = after ∧ s.depth = r.depth ∧ statement.location = r.current.location ∧
      (r.reports = [] → ∀ d ∈ s.reports, d.location.line = line) := by
  obtain ⟨honward, hdepth⟩ := h.advance
  cases (read_finishes hopens hlead r.advance).of_result hread with
  | read hreads hrest hends =>
    obtain ⟨fs, cs, comment, -, hline, -⟩ := hrest
    obtain ⟨vs, -, hmid⟩ := honward.passes hreads.toPasses
    refine ⟨(hmid.end_of_line hends).2, ?_, location_of_isLine hline, fun hclean => ?_⟩
    · rw [hends.depth, hreads.depth, hdepth]
    · rw [hends.reports]
      exact honward.reported (by simpa) hreads.toPasses

/-- A line that is given up is passed over, and reported. -/
theorem refused_onLine (h : r.OnLine line (t :: others) tail after) (hclean : r.reports = [])
    (hindent : leading after ≠ .indent) (hpass : r.advance.Passes us s) :
    (s.skipLine r.depth).stream.tokens = after ∧ (s.skipLine r.depth).depth = r.depth ∧
      ∀ d ∈ (s.skipLine r.depth).reports, d.location.line = line := by
  obtain ⟨honward, hdepth⟩ := h.advance
  obtain ⟨vs, -, hs⟩ := honward.passes hpass
  obtain ⟨htokens, hsame, hreports⟩ := hs.skipLine hindent
  rw [hpass.depth, hdepth] at htokens hsame hreports
  rw [hreports]
  exact ⟨htokens, hsame, honward.reported (by simpa) hpass⟩

/-- A line that begins with a token of no statement is passed over, and reported. -/
theorem skipUnknown_onLine (h : r.OnLine line (t :: others) tail after) (hclean : r.reports = [])
    (hindent : leading after ≠ .indent) (cause : Cause) :
    (skipUnknown cause r.depth r).stream.tokens = after ∧
      (skipUnknown cause r.depth r).depth = r.depth ∧
      ∀ d ∈ (skipUnknown cause r.depth r).reports, d.location.line = line := by
  have hreport := h.report r.current.location cause
  obtain ⟨honward, hdepth⟩ := hreport.advance
  obtain ⟨htokens, hsame, hreports⟩ := honward.skipLine hindent
  rw [hdepth, depth_report] at htokens hsame hreports
  refine ⟨htokens, hsame, fun d hd => ?_⟩
  rw [skipUnknown, hreports, reports_advance, reports_report_of_nil hclean,
    List.mem_singleton] at hd
  rw [hd]
  exact h.current_line

/-- What reading a header at the beginning of a line comes to. -/
theorem read_header_onLine {stream : Stream} (h : r.OnLine t.location.line (t :: others) tail after)
    (hending : r.stream.ending = stream.ending)
    (hproc : t.kind = .keyword .proc) (hclean : r.reports = []) (hindent : leading after ≠ .indent) :
    (∃ us s, (read .procedure r.current r.advance).result = (none, s) ∧ r.advance.Passes us s) ∨
      ∃ procedure s, (read .procedure r.current r.advance).result = (some procedure, s) ∧
        s.stream.tokens = after ∧ s.depth = r.depth ∧
        Confined stream t.location (t :: others) tail after (some procedure) s.reports := by
  have hcurrent : r.current = t := current_of_tokens h.tokens
  obtain ⟨honward, hdepth⟩ := h.advance
  have hresult := read_procedure t r.advance
  have hfinishes := Header.read_finishes hproc r.advance
  rw [hcurrent]
  cases hheader : Header.read t.location r.advance with
  | mk value q hle =>
    rw [hheader] at hfinishes hresult
    cases hfinishes with
    | refused hpass hne => exact .inl ⟨_, q, hresult, hpass⟩
    | @read us header mid _ hreads hrest hends =>
      obtain ⟨hs, cs, rfl, hheading, hremark⟩ := hrest
      obtain ⟨vs, hvs, hmid⟩ := honward.passes hreads.toPasses
      obtain ⟨rfl, htokens⟩ := hmid.end_of_line hends
      have hne : q.current.kind ≠ .indent := by rwa [kind_current, htokens]
      have hquiet : q.reports = [] := by
        rw [hends.reports, hreads.quiet True.intro, reports_advance, hclean]
      have hfound : q.current = Stream.head ⟨after, stream.ending⟩ := by
        rw [← htokens, ← hending, ← (comesTo_advance r).ending, ← hreads.ending,
          ← hends.comesTo.ending]
        rfl
      have hplace : header.location = t.location := by
        obtain ⟨p, hs', hp, -, hplace⟩ := isHeading_cons hheading
        rw [hplace, (List.cons.inj hp).1]
      simp only [Step.result, if_neg hne] at hresult
      refine .inr ⟨_, _, hresult, ?_, ?_, ?_⟩
      · rw [reportExpected, stream_report, htokens]
      · rw [reportExpected, depth_report, hends.depth, hreads.depth, hdepth]
      · rw [reportExpected, reports_report_of_nil hquiet, hfound]
        cases hmid.ends with
        | newline hnewline =>
          exact .headerAlone (by rw [hvs, List.append_nil]; rfl) hheading hremark hplace rfl hnewline
        | closing hall hlast =>
          have hq : q.OnLine t.location.line [] tail tail :=
            ⟨htokens, by simp, hends.comesTo.ending ▸ .closing hall hlast⟩
          refine .onLine (by simpa [Statement.location] using hplace) ?_
          rw [List.forall_mem_singleton, ← hfound]
          exact hq.current_line

/-- What reading at the beginning of a line comes to. -/
theorem read_onLine {stream : Stream} (h : r.OnLine t.location.line (t :: others) tail after)
    (hending : r.stream.ending = stream.ending) (hopens : lead.Opens place r.current)
    (hclean : r.reports = []) (hindent : leading after ≠ .indent) :
    (∃ us s, (read lead r.current r.advance).result = (none, s) ∧ r.advance.Passes us s) ∨
      ∃ statement s, (read lead r.current r.advance).result = (some statement, s) ∧
        s.stream.tokens = after ∧ s.depth = r.depth ∧
        Confined stream t.location (t :: others) tail after (some statement) s.reports := by
  have hcurrent : r.current = t := current_of_tokens h.tokens
  by_cases hproc : lead = .procedure
  · subst hproc
    exact read_header_onLine h hending (hcurrent ▸ hopens) hclean hindent
  · cases hread : (read lead r.current r.advance).result with
    | mk value s =>
      cases value with
      | some statement =>
        obtain ⟨htokens, hdepth, hlocation, hreports⟩ := read_line_onLine h hopens hproc hread
        refine .inr ⟨statement, s, rfl, htokens, hdepth, .onLine ?_ (hreports hclean)⟩
        simpa [hcurrent] using hlocation
      | none =>
        cases (read_finishes hopens hproc r.advance).of_result hread with
        | refused hpass => exact .inl ⟨_, s, rfl, hpass⟩

/-- Whatever the tokens of a line are, they are read in one turn, up to the end of the line. -/
theorem turnsTo_line {stream : Stream} {location : Location} {before : List Token}
    (h : stream.HasLine location before t others tail after) :
    TurnsTo stream.ending (t :: others ++ tail) after
      (Confined stream location (t :: others) tail after) := by
  intro place r hr hclean hindent hstray
  obtain ⟨-, -, rfl, hinside, hends⟩ := h
  have hending : r.stream.ending = stream.ending := by rw [hr]
  have honLine : r.OnLine t.location.line (t :: others) tail after :=
    ⟨by rw [hr], hinside, hending ▸ hends⟩
  have hcurrent : r.current = t := current_of_tokens honLine.tokens
  have hstray' {s : Reading} (hs : s.stream.tokens = after) (hfile : place = .file) :
      s.current.kind ≠ .unindent := by
    rw [kind_current, hs]
    exact hstray hfile
  cases hlead : Lead.at? place r with
  | none =>
    have hcontent : r.current.kind.isLayout = false := hcurrent ▸ (hinside t List.mem_cons_self).1
    obtain ⟨htokens, hdepth, hreports⟩ := skipUnknown_onLine honLine hclean hindent (missing place)
    exact ⟨none, _, turn_of_unknown hlead hcontent (hstray' htokens), htokens, hdepth,
      .onLine (by simp) hreports⟩
  | some lead =>
    rcases read_onLine honLine hending (Lead.opens_of_at hlead) hclean hindent with
      ⟨us, s, hread, hpass⟩ | ⟨statement, s, hread, htokens, hdepth, hconfined⟩
    · obtain ⟨htokens, hdepth, hreports⟩ := refused_onLine honLine hclean hindent hpass
      exact ⟨none, _, turn_of_failure hlead hread (hstray' htokens), htokens, hdepth,
        .onLine (by simp) hreports⟩
    · exact ⟨some statement, s, turn_of_read hlead hread (hstray' htokens), htokens, hdepth,
        hconfined⟩

/-- A statement of one line takes the tokens of the line where it begins. -/
theorem after_of_isStatement {rest : List Token} {ending : Location}
    (hs : IsStatement true place (t :: others ++ tail) statement rest)
    (hheader : statement.header? = none)
    (hinside : ∀ u ∈ t :: others, u.kind.isLayout = false ∧ u.location.line = line)
    (hends : LineBreak line ending tail after) : rest = after := by
  let r : Reading := Reading.start ⟨t :: others ++ tail, ending⟩
  have honLine : r.OnLine line (t :: others) tail after := ⟨rfl, hinside, hends⟩
  obtain ⟨lead, s, htaken⟩ := exists_taken hs.lax.1 r rfl
  have hlead : lead ≠ .procedure := by
    rintro rfl
    have hread := htaken.read
    rw [read_procedure] at hread
    split at hread
    · cases hread
    · split at hread <;> cases hread <;> cases hheader
  rw [← htaken.tokens]
  exact (read_line_onLine honLine htaken.opens hlead htaken.read).1

end Statement

end FirSyntax
