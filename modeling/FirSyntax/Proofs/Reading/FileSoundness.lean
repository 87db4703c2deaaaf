import FirSyntax.Proofs.Reading.FileReaches
import FirSyntax.Proofs.Reading.Levels

/-!
# Soundness of the rules of a file

Statements, blocks and files as they are read, with all that recovery may pass over in between. The
levels are kept whatever happens; as long as nothing is reported, nothing was passed over, and what
was read is a derivation in the strict grammar.
-/
namespace FirSyntax

open Token Grammar

/-- Without a diagnostic, a line that the lax grammar has is one of the strict grammar. -/
theorem Grammar.IsLine.strict {place : Place} {fs : List Token} {comment : Option String}
    {s : Statement} (h : IsLine false place fs comment s) (hs : s.Complete) :
    IsLine true place fs comment s := by
  cases h with
  | consts hkind hclauses =>
    cases hs with
    | consts hconstant => exact .consts hkind hclauses fun _ => hconstant
  | vars hkind hclauses => exact .vars hkind hclauses
  | returns hkind hvalue => exact .returns hkind hvalue
  | comment hkind => exact .comment hkind
  | imports hkind hpaths => exact .imports hkind hpaths
  | moduleName hkind htext hpath => exact .moduleName hkind htext hpath

namespace Reading

theorem AtLevel.of_depth {r : Reading} {depth : Nat} (h : r.AtLevel depth)
    (hk : r.current.kind ≠ .indentMismatch) : r.depth = depth :=
  h.resolve_right fun hm => hk hm.2

end Reading

namespace Statement

theorem Lead.Opens.ne_eof {lead : Lead} {place : Place} {t : Token} (h : lead.Opens place t) :
    t.kind ≠ .eof := by
  intro hk
  have := h.isLayout
  simp [hk, Kind.isLayout] at this

theorem Lead.Opens.ne_mismatch {lead : Lead} {place : Place} {t : Token} (h : lead.Opens place t) :
    t.kind ≠ .indentMismatch := by
  intro hk
  have := h.isLayout
  simp [hk, Kind.isLayout] at this

variable {cut : Bool} {p : Position} {r r' : Reading} {depth : Nat}

theorem reports_skipMismatch_ne_nil (r : Reading) : (skipMismatch r).reports ≠ [] := by
  intro h
  have hsuffix := (comesTo_skipMismatch r).reports_suffix
  rw [h, List.suffix_nil] at hsuffix
  exact Reading.reports_report_ne_nil r _ _ hsuffix

theorem reports_skipUnknown_ne_nil (cause : Cause) (depth : Nat) (r : Reading) :
    (skipUnknown cause depth r).reports ≠ [] := by
  intro h
  have hsuffix := (comesTo_skipUnknown cause depth r).reports_suffix
  rw [h, List.suffix_nil] at hsuffix
  exact Reading.reports_report_ne_nil r _ _ hsuffix

/-- A mismatch closes one level; the line that it begins is passed over at the level above. -/
theorem skipMismatch_laidAs (h : r.LaidAs cut p) (hk : r.current.kind = .indentMismatch) :
    p = .lineStart ∧ ∃ d, r.depth = d + 1 ∧ (skipMismatch r).LaidAs cut .lineStart ∧
      (skipMismatch r).AtLevel d := by
  have hreport : (r.reportExpected (.token .unindent)).LaidAs cut p := by
    simpa [Reading.reportExpected]
  obtain ⟨rfl, hlaid, hdepth⟩ := hreport.mismatch (by simpa)
  rw [Reading.reportExpected, Reading.depth_report] at hdepth
  exact ⟨rfl, _, hdepth.symm, Reading.skipLine_laidAs _ hlaid (Nat.le_refl _)⟩

theorem skipUnknown_laidAs (cause : Cause) (h : r.LaidAs cut p) (hne : r.current.kind ≠ .eof)
    (hnewline : r.current.kind ≠ .newline) (hunindent : r.current.kind ≠ .unindent)
    (hmismatch : r.current.kind ≠ .indentMismatch) (hle : depth ≤ r.depth) :
    (skipUnknown cause depth r).LaidAs cut .lineStart ∧ (skipUnknown cause depth r).AtLevel depth := by
  have hreport : (r.report r.current.location cause).LaidAs cut p := by simpa
  obtain ⟨q, -, hlaid, hdepth⟩ := hreport.further (by simpa) (by simpa) (by simpa) (by simpa)
  rw [Reading.depth_report] at hdepth
  exact Reading.skipLine_laidAs _ hlaid (by omega)

/-- What is said of a statement whose first token stood in front of `r`: the levels are kept and,
without a diagnostic, the statement is derived; a missing statement has been reported. -/
inductive Left (cut : Bool) (place : Place) (first : Token) (r : Reading) :
    Option Statement → Reading → Prop where
  | read {s r'} : r'.LaidAs cut .lineStart → r'.depth = r.depth → r.reports <:+ r'.reports →
      (r'.reports = [] → IsStatement true place (first :: r.stream.tokens) s r'.stream.tokens) →
      Left cut place first r (some s) r'
  | refused {ts r'} : r.Passes ts r' → r'.reports ≠ [] → Left cut place first r none r'

/-- What is said of the rest of a block whose lines have `depth` levels open: its level is closed
and, without a diagnostic, it is derived. -/
structure Closed (cut : Bool) (depth : Nat) (r : Reading) (body : List Statement)
    (r' : Reading) : Prop where
  laidAs : r'.LaidAs cut .lineStart
  depth_eq : r'.depth + 1 = depth
  reports : r.reports <:+ r'.reports
  derived : r'.reports = [] → ∃ u, u.kind = .unindent ∧
    (body = [] ∧ r.stream.tokens = u :: r'.stream.tokens ∨
      IsBody true r.stream.tokens body (u :: r'.stream.tokens))

/-- A block that goes on after a turn. -/
theorem Closed.turn {added : Option Statement} {body : List Statement} {s : Reading}
    (h : Closed cut depth s body r') (hsuffix : r.reports <:+ s.reports)
    (hadded : s.reports = [] → ∃ statement, added = some statement ∧
      IsStatement true .block r.stream.tokens statement s.stream.tokens) :
    Closed cut depth r (added.toList ++ body) r' where
  laidAs := h.laidAs
  depth_eq := h.depth_eq
  reports := hsuffix.trans h.reports
  derived := by
    intro hnil
    have hreports := h.reports
    rw [hnil, List.suffix_nil] at hreports
    obtain ⟨statement, rfl, hstatement⟩ := hadded hreports
    obtain ⟨u, hu, ⟨rfl, htokens⟩ | hbody⟩ := h.derived hnil
    · exact ⟨u, hu, .inr (.one (htokens ▸ hstatement))⟩
    · exact ⟨u, hu, .inr (.more hstatement hbody)⟩

theorem left_of_finishes {lead : Lead} {place : Place} {first : Token}
    (hfirst : lead.Opens place first) (hlead : lead ≠ .procedure) (h : r.LaidAs cut .inside) :
    Left cut place first r (read lead first r).value (read lead first r).after := by
  cases hvalue : read lead first r with
  | mk value after hle =>
    have hfinishes := read_finishes hfirst hlead r
    rw [hvalue] at hfinishes
    cases hfinishes with
    | read hreads hrest hends =>
      obtain ⟨fs, cs, comment, rfl, hline, hremark⟩ := hrest
      obtain ⟨hlaid, hdepth, hreports, hend⟩ := (h.passes hreads.toPasses).ends hends
      refine .read hlaid (hdepth.trans hreads.depth) (hreports ▸ hreads.reports) fun hnil => ?_
      rw [hreports, hreads.spotless] at hnil
      rw [hreads.tokens, List.append_assoc, ← List.cons_append]
      exact .line (hline.strict hnil.2) (.intro hremark hend)
    | refused hpass hne => exact .refused hpass hne

/-- A procedure whose block is closed. -/
theorem left_of_closed {place : Place} {first : Token} {header : Header} {mid : Reading}
    {hs cs : List Token} {body : List Statement} {s : Reading} (hreads : r.Reads (hs ++ cs) True mid)
    (hheading : IsHeading (first :: hs) header) (hremark : IsRemark cs header.comment)
    (hlaid : r'.LaidAs cut .lineStart) (hdepth : r'.depth = mid.depth)
    (hreports : r'.reports = mid.reports) (hend : IsEnd mid.stream.tokens r'.stream.tokens)
    (hindent : r'.current.kind = .indent) (hclosed : Closed cut r'.advance.depth r'.advance body s) :
    Left cut place first r (some (.procedure header body)) s := by
  obtain ⟨-, hopened, hdeeper⟩ := hlaid.indent hindent
  have hsuffix := hclosed.reports
  rw [Reading.reports_advance] at hsuffix
  refine .read hclosed.laidAs ?_ ((hreports ▸ hreads.reports).trans hsuffix) fun hnil => ?_
  · have := hclosed.depth_eq
    have := hreads.depth
    omega
  · obtain ⟨u, hu, hbody⟩ := hclosed.derived hnil
    replace hbody := hbody.resolve_left fun hempty => hopened.not_unindent hempty.2 hu
    rw [hreads.tokens, List.append_assoc, ← List.cons_append]
    refine .procedure hheading (.intro hremark hend) ?_
    have hne : r'.current.kind ≠ .eof := by simp [hindent]
    rw [Reading.tokens_eq_cons hne, ← Reading.tokens_advance hne]
    exact .intro hindent hbody hu

/-! ## Single turns -/

/-- What is said of a turn over lines with `depth` levels open: it stays at its level and, without a
diagnostic, takes a statement that is derived. -/
structure SoundTurn (cut : Bool) (place : Place) (depth : Nat) (r : Reading)
    (added : Option Statement) (s : Reading) : Prop where
  laidAs : s.LaidAs cut .lineStart
  level : s.AtLevel depth
  reports : r.reports <:+ s.reports
  derived : s.reports = [] → ∃ statement, added = some statement ∧
    IsStatement true place r.stream.tokens statement s.stream.tokens

namespace SoundTurn

variable {place : Place} {lead : Lead} {statement : Statement} {after : Reading}

theorem of_mismatch (h : r.LaidAs cut p) (hlevel : r.AtLevel depth)
    (hmismatch : r.current.kind = .indentMismatch) (hnot : depth ≤ (skipMismatch r).depth) :
    SoundTurn cut place depth r none (skipMismatch r) := by
  obtain ⟨-, d, hd, hlaid, hlevel'⟩ := skipMismatch_laidAs h hmismatch
  have hagain : (skipMismatch r).AtLevel depth := by
    rcases hlevel with heq | ⟨heq, -⟩
    · rcases hlevel' with hlevel' | ⟨hlevel', -⟩
      · omega
      · exact .inl (by omega)
    · rwa [show depth = d by omega]
  have hsuffix := (comesTo_skipMismatch r).reports_suffix
  exact ⟨hlaid, hagain, (Reading.reports_suffix_report ..).trans hsuffix,
    fun hnil => absurd hnil (reports_skipMismatch_ne_nil r)⟩

theorem of_read (hopens : lead.Opens place r.current) (h : r.LaidAs cut p)
    (hlevel : r.AtLevel depth)
    (hread : (read lead r.current r.advance).result = (some statement, after))
    (hleft : Left cut place r.current r.advance (read lead r.current r.advance).value
      (read lead r.current r.advance).after) :
    SoundTurn cut place depth r (some statement) after := by
  obtain ⟨-, hsame⟩ := h.content hopens.isLayout
  have heq := hlevel.of_depth hopens.ne_mismatch
  obtain ⟨hvalue, hafter⟩ := Prod.mk.inj hread
  rw [hvalue, hafter] at hleft
  cases hleft with
  | read hlaid hdepth hreports hstatement =>
    rw [Reading.reports_advance] at hreports
    rw [Reading.tokens_advance hopens.ne_eof, ← Reading.tokens_eq_cons hopens.ne_eof]
      at hstatement
    exact ⟨hlaid, .inl (by omega), hreports, fun hnil => ⟨_, rfl, hstatement hnil⟩⟩

theorem of_failure (hopens : lead.Opens place r.current) (h : r.LaidAs cut p)
    (hlevel : r.AtLevel depth)
    (hread : (read lead r.current r.advance).result = (none, after))
    (hleft : Left cut place r.current r.advance (read lead r.current r.advance).value
      (read lead r.current r.advance).after) :
    SoundTurn cut place depth r none (after.skipLine depth) := by
  obtain ⟨hlaid, hsame⟩ := h.content hopens.isLayout
  have heq := hlevel.of_depth hopens.ne_mismatch
  obtain ⟨hvalue, hafter⟩ := Prod.mk.inj hread
  rw [hvalue, hafter] at hleft
  cases hleft with
  | refused hpass hne =>
    have hdepth := hpass.depth
    obtain ⟨hlaid', hlevel'⟩ := Reading.skipLine_laidAs depth (hlaid.passes hpass) (by omega)
    have hsuffix := (Reading.comesTo_skipLine depth after).reports_suffix
    have hbefore := hpass.reports
    rw [Reading.reports_advance] at hbefore
    refine ⟨hlaid', hlevel', hbefore.trans hsuffix, fun hnil => ?_⟩
    rw [hnil, List.suffix_nil] at hsuffix
    exact absurd hsuffix hne

theorem of_unknown (cause : Cause) (h : r.LaidAs cut p) (hlevel : r.AtLevel depth)
    (hne : r.current.kind ≠ .eof) (hnewline : r.current.kind ≠ .newline)
    (hmismatch : r.current.kind ≠ .indentMismatch) (hunindent : r.current.kind ≠ .unindent) :
    SoundTurn cut place depth r none (skipUnknown cause depth r) := by
  obtain ⟨hlaid, hlevel'⟩ :=
    skipUnknown_laidAs cause h hne hnewline hunindent hmismatch hlevel.le
  have hsuffix := (comesTo_skipUnknown cause depth r).reports_suffix
  exact ⟨hlaid, hlevel', (Reading.reports_suffix_report ..).trans hsuffix,
    fun hnil => absurd hnil (reports_skipUnknown_ne_nil cause depth r)⟩

end SoundTurn

/-- A turn in a block is sound, given what is said of the statement that it reads. -/
theorem BlockTurn.sound_of_left {added : Option Statement} {s : Reading}
    (hturn : BlockTurn depth r added s) (h : r.LaidAs cut p) (hp : p ≠ .inside)
    (hlevel : r.AtLevel depth)
    (hleft : ∀ lead : Lead, lead.Opens .block r.current → r.advance.LaidAs cut .inside →
      Left cut .block r.current r.advance (read lead r.current r.advance).value
        (read lead r.current r.advance).after) :
    SoundTurn cut .block depth r added s := by
  cases hturn with
  | newline hnewline => exact absurd (h.newline hnewline).1 hp
  | mismatch hmismatch hnot => exact .of_mismatch h hlevel hmismatch hnot
  | @statement lead statement after hlead hread =>
    have hopens := Lead.opens_of_inBlock hlead
    exact .of_read hopens h hlevel hread (hleft lead hopens (h.content hopens.isLayout).1)
  | @failure lead after hlead hread =>
    have hopens := Lead.opens_of_inBlock hlead
    exact .of_failure hopens h hlevel hread (hleft lead hopens (h.content hopens.isLayout).1)
  | unknown _ hne hnewline hmismatch hunindent =>
    exact .of_unknown .noStatement h hlevel hne hnewline hmismatch hunindent

mutual

theorem read_left {lead : Lead} {place : Place} {first : Token} (hfirst : lead.Opens place first)
    (r : Reading) (h : r.LaidAs cut .inside) :
    Left cut place first r (read lead first r).value (read lead first r).after := by
  by_cases hlead : lead = .procedure
  · subst hlead
    have hresult := read_procedure first r
    cases hheader : Header.read first.location r with
    | mk value after hle =>
      have hfinishes := Header.read_finishes hfirst r
      rw [hheader] at hfinishes hresult
      cases hfinishes with
      | refused hpass hne =>
        obtain ⟨hvalue, hafter⟩ := Prod.mk.inj hresult
        rw [hvalue, hafter]
        exact .refused hpass hne
      | read hreads hrest hends =>
        obtain ⟨hs, cs, rfl, hheading, hremark⟩ := hrest
        obtain ⟨hlaid, hdepth, hreports, hend⟩ := (h.passes hreads.toPasses).ends hends
        simp only [Step.result] at hresult
        split at hresult
        · next hindent =>
          have hlt := Reading.remaining_advance_lt (r := after) (by simp [hindent])
          obtain ⟨-, hopened, hdeeper⟩ := hlaid.indent hindent
          obtain ⟨hvalue, hafter⟩ := Prod.mk.inj hresult
          rw [hvalue, hafter]
          exact left_of_closed hreads hheading hremark hlaid hdepth hreports hend hindent
            (readBlock_closed after.advance hopened (by simp) (.inl rfl) (hdeeper ▸ Nat.succ_pos _))
        · obtain ⟨hvalue, hafter⟩ := Prod.mk.inj hresult
          rw [hvalue, hafter]
          refine .read ((Reading.laidAs_report _ _).mpr hlaid)
            ((Reading.depth_report ..).trans (hdepth.trans hreads.depth))
            ((hreports ▸ hreads.reports).trans (Reading.reports_suffix_report after _ _)) fun hnil => ?_
          exact absurd hnil (Reading.reports_report_ne_nil _ _ _)
  · exact left_of_finishes hfirst hlead h
termination_by r.remaining
decreasing_by omega

/-- A block is left with its level closed. -/
theorem readBlock_closed {p : Position} {depth : Nat} (r : Reading) (h : r.LaidAs cut p)
    (hp : p ≠ .inside) (hlevel : r.AtLevel depth) (hdepth : 0 < depth) :
    Closed cut depth r (readBlock depth r).value (readBlock depth r).after := by
  rcases exists_blockTurn depth r with ⟨s, hstop⟩ | ⟨added, s, hturn⟩
  · obtain ⟨hvalue, hafter⟩ := Prod.mk.inj hstop.result
    rw [hvalue, hafter]
    cases hstop with
    | eof heof =>
      have := (h.lineStart_of_eof heof).2
      have := hlevel.le
      omega
    | unindent hunindent =>
      have heq := hlevel.of_depth (by simp [hunindent])
      have hne : r.current.kind ≠ .eof := by simp [hunindent]
      obtain ⟨hlaid, hclosed⟩ := h.unindent hunindent
      refine ⟨hlaid, heq ▸ hclosed, by simp, fun _ => ⟨r.current, hunindent, .inl ⟨rfl, ?_⟩⟩⟩
      rw [Reading.tokens_advance hne]
      exact Reading.tokens_eq_cons hne
    | mismatch hmismatch hbelow =>
      obtain ⟨-, d, hd, hlaid, hlevel'⟩ := skipMismatch_laidAs h hmismatch
      refine ⟨hlaid, ?_, (Reading.reports_suffix_report ..).trans (comesTo_skipMismatch r).reports_suffix,
        fun hnil => absurd hnil (reports_skipMismatch_ne_nil r)⟩
      have := hlevel.le
      have := hlevel'.le
      omega
  · have hlt := hturn.remaining_lt
    have hsmall := Reading.remaining_advance_lt hturn.ne_eof
    obtain ⟨hvalue, hafter⟩ := Prod.mk.inj hturn.result
    rw [hvalue, hafter]
    have hsound := hturn.sound_of_left h hp hlevel
      fun lead hopens hinside => read_left hopens r.advance hinside
    have hclosed := readBlock_closed s hsound.laidAs (by simp) hsound.level hdepth
    exact hclosed.turn hsound.reports hsound.derived
termination_by r.remaining
decreasing_by all_goals omega

end

theorem BlockTurn.sound {added : Option Statement} {s : Reading}
    (hturn : BlockTurn depth r added s) (h : r.LaidAs cut p) (hp : p ≠ .inside)
    (hlevel : r.AtLevel depth) : SoundTurn cut .block depth r added s :=
  hturn.sound_of_left h hp hlevel fun _ hopens hinside => read_left hopens r.advance hinside

/-- At the top level nothing is left to be closed. -/
theorem skipStray_eq (h : r.LaidAs cut p) : r.skipStray 0 = r := by
  refine if_neg ?_
  rintro ⟨hdepth, hk⟩
  have := (h.unindent hk).2
  omega

theorem FileTurn.sound {added : Option Statement} {s : Reading} (hturn : FileTurn r added s)
    (h : r.LaidAs cut .lineStart) (hlevel : r.AtLevel 0) :
    SoundTurn cut .file 0 r added s := by
  cases hturn with
  | newline hnewline => exact absurd (h.newline hnewline).1 (by simp)
  | mismatch hmismatch => exact .of_mismatch h hlevel hmismatch (Nat.zero_le _)
  | unindent hunindent =>
    have := (h.unindent hunindent).2
    have := hlevel.of_depth (by simp [hunindent])
    omega
  | @statement lead statement after hlead hread =>
    have hopens := Lead.opens_of_atTop hlead
    have hsound := SoundTurn.of_read hopens h hlevel hread
      (read_left hopens r.advance (h.content hopens.isLayout).1)
    rwa [hlevel.of_depth hopens.ne_mismatch, skipStray_eq hsound.laidAs]
  | @failure lead after hlead hread =>
    have hopens := Lead.opens_of_atTop hlead
    have hsound := SoundTurn.of_failure hopens h hlevel hread
      (read_left hopens r.advance (h.content hopens.isLayout).1)
    rwa [hlevel.of_depth hopens.ne_mismatch, skipStray_eq hsound.laidAs]
  | unknown _ hne hnewline hmismatch hunindent =>
    have hsound : SoundTurn cut .file 0 r none (skipUnknown .notAtTopLevel 0 r) :=
      .of_unknown .notAtTopLevel h hlevel hne hnewline hmismatch hunindent
    rwa [hlevel.of_depth hmismatch, skipStray_eq hsound.laidAs]

/-- The whole of a file: nothing reported means that all of it is derived. -/
theorem readAllFrom_derived (done : List Statement) (r : Reading) (h : r.LaidAs cut .lineStart)
    (hlevel : r.AtLevel 0) :
    r.reports <:+ (readAllFrom done r).2.reports ∧
      ((readAllFrom done r).2.reports = [] → ∃ body,
        (readAllFrom done r).1 = done.reverse ++ body ∧ IsFile true r.stream.tokens body) := by
  by_cases heof : r.current.kind = .eof
  · rw [readAllFrom_eof done heof]
    refine ⟨List.suffix_refl _, fun _ => ⟨[], by simp, ?_⟩⟩
    rw [h.tokens_of_eof heof]
    exact .nil
  · obtain ⟨added, s, hturn⟩ := exists_fileTurn heof
    have hlt := hturn.remaining_lt
    have hsound := hturn.sound h hlevel
    obtain ⟨hsuffix, hderived⟩ :=
      readAllFrom_derived (added.toList ++ done) s hsound.laidAs hsound.level
    rw [hturn.readAllFrom_eq]
    refine ⟨hsound.reports.trans hsuffix, fun hnil => ?_⟩
    obtain ⟨body, hbody, hfile⟩ := hderived hnil
    rw [hnil, List.suffix_nil] at hsuffix
    obtain ⟨statement, rfl, hstatement⟩ := hsound.derived hsuffix
    exact ⟨statement :: body, by simpa using hbody, .statement hstatement hfile⟩
termination_by r.remaining

end Statement

end FirSyntax
