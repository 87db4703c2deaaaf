import FirSyntax.Proofs.Reading.Completeness
import FirSyntax.Proofs.Reading.FileSoundness

/-!
# Completeness of the rules of a file

A derivation in the lax grammar is read as the tree that it derives, to the last token. Something is
reported just when the tree is not complete, so a derivation in the strict grammar leaves no
diagnostic.
-/
namespace FirSyntax

open Token Grammar

theorem Grammar.IsBody.body_ne_nil {strict : Bool} {ts rest : List Token} {body : List Statement}
    (h : IsBody strict ts body rest) : body ≠ [] := by
  cases h <;> simp

namespace Statement

theorem Lead.inBlock_of_opens {lead : Lead} {t : Token} (h : lead.Opens .block t) :
    inBlock? t.kind = some lead := by
  cases lead <;> simp_all [Opens, inBlock?]

/-- The word `module` opens a line of the file when an identifier follows. -/
theorem Lead.atTop_of_opens {lead : Lead} {r : Reading} (h : lead.Opens .file r.current)
    (hmodule : lead = .moduleName → r.upcoming.kind = .identifier) : atTop? r = some lead := by
  cases lead <;> simp_all [Opens, atTop?]

/-- The statement `s` is read from `r` on, up to the tokens `rest`; something is reported just when
the statement is not complete, whatever was reported before. -/
structure Taken (place : Place) (r : Reading) (s : Statement) (rest : List Token) (lead : Lead)
    (after : Reading) : Prop where
  opens : lead.Opens place r.current
  read : (read lead r.current r.advance).result = (some s, after)
  tokens : after.stream.tokens = rest
  depth : after.depth = r.depth
  spotless : after.reports = [] ↔ r.reports = [] ∧ s.Complete
  quiet : s.Complete → after.reports = r.reports

/-- The statements `body` are read from `r` on, and their level is closed in front of the tokens
`rest`. -/
structure BodyTaken (level : Nat) (r : Reading) (body : List Statement) (rest : List Token) :
    Prop where
  value : (readBlock level r).value = body
  tokens : (readBlock level r).after.stream.tokens = rest
  depth : (readBlock level r).after.depth = r.depth - 1
  spotless : (readBlock level r).after.reports = [] ↔
    r.reports = [] ∧ body ≠ [] ∧ ∀ s ∈ body, s.Complete
  quiet : (body ≠ [] ∧ ∀ s ∈ body, s.Complete) → (readBlock level r).after.reports = r.reports

/-- The statement at the end of a level. -/
theorem Taken.last {depth : Nat} {r after : Reading} {s : Statement} {u : Token} {rest : List Token}
    {lead : Lead} (h : Taken .block r s (u :: rest) lead after) (hu : u.kind = .unindent) :
    BodyTaken depth r [s] rest := by
  have hturn : BlockTurn depth r (some s) after := .statement (Lead.inBlock_of_opens h.opens) h.read
  have hkind : after.current.kind = .unindent := by rw [Reading.current_of_tokens h.tokens, hu]
  have hne : after.current.kind ≠ .eof := by simp [hkind]
  have hstop : BlockEnd depth after after.advance := .unindent hkind
  obtain ⟨hempty, hend⟩ := Prod.mk.inj hstop.result
  obtain ⟨hvalue, hafter⟩ := Prod.mk.inj hturn.result
  rw [hempty] at hvalue
  rw [hend] at hafter
  refine ⟨hvalue, ?_, ?_, ?_, fun hcomplete => ?_⟩
  · rw [hafter, Reading.tokens_advance hne, h.tokens, List.tail_cons]
  · rw [hafter, Reading.depth_advance hne, hkind, h.depth]
    rfl
  · rw [hafter, Reading.reports_advance, h.spotless]
    simp
  · rw [hafter, Reading.reports_advance]
    exact h.quiet (hcomplete.2 s List.mem_cons_self)

/-- A statement in front of others of its level. -/
theorem Taken.cons {depth : Nat} {r after : Reading} {s : Statement} {us rest : List Token}
    {lead : Lead} {body : List Statement} (h : Taken .block r s us lead after) (hne : body ≠ [])
    (hrest : BodyTaken depth after body rest) : BodyTaken depth r (s :: body) rest := by
  have hturn : BlockTurn depth r (some s) after := .statement (Lead.inBlock_of_opens h.opens) h.read
  obtain ⟨hvalue, hafter⟩ := Prod.mk.inj hturn.result
  rw [hrest.value] at hvalue
  refine ⟨hvalue, ?_, ?_, ?_, fun hcomplete => ?_⟩
  · rw [hafter, hrest.tokens]
  · rw [hafter, hrest.depth, h.depth]
  · rw [hafter, hrest.spotless, h.spotless]
    simp [hne, and_assoc]
  · have hall := List.forall_mem_cons.mp hcomplete.2
    rw [hafter, hrest.quiet ⟨hne, hall.2⟩, h.quiet hall.1]

theorem exists_taken_line {place : Place} {fs ls rest : List Token} {comment : Option String}
    {s : Statement} {r : Reading} (hs : IsLine false place fs comment s)
    (hline : IsLineEnd ls comment rest) (h : r.stream.tokens = fs ++ ls) :
    ∃ lead after, Taken place r s rest lead after := by
  obtain ⟨first, fs, rfl⟩ : ∃ first fs', fs = first :: fs' := by
    cases hs <;> exact ⟨_, _, rfl⟩
  have hcurrent : r.current = first := Reading.current_of_tokens h
  have hkind : first.kind.isLayout = false := by
    cases hs <;> rename_i hk <;> simp [*, Kind.isLayout]
  obtain ⟨lead, hlead, hopens, hgives⟩ :=
    read_gives hs hline (Reading.advance_before h hkind)
  have hfinishes := read_finishes hopens hlead r.advance
  rw [Step.Finishes, hgives.value] at hfinishes
  cases hfinishes with
  | read hreads hrest hends =>
    have hdepth := (Reading.Passes.advance (r := r) (hcurrent ▸ hkind)).depth
    refine ⟨lead, _, hcurrent ▸ hopens, ?_, hgives.tokens, ?_, ?_, fun hcomplete => ?_⟩
    · rw [hcurrent, Step.result, hgives.value]
    · rw [hends.depth, hreads.depth, hdepth]
    · rw [hends.reports, hreads.spotless, Reading.reports_advance]
    · rw [hends.reports, hreads.quiet hcomplete, Reading.reports_advance]

theorem isHeading_cons {hs : List Token} {header : Header} (h : IsHeading hs header) :
    ∃ p hs', hs = p :: hs' ∧ p.kind = .keyword .proc ∧ header.location = p.location := by
  cases h with
  | intro hp => exact ⟨_, _, rfl, hp, rfl⟩

/-- The header of a procedure, from its second token on. -/
theorem header_taken {hs ls rest : List Token} {header : Header} {r : Reading}
    (hheading : IsHeading hs header) (hline : IsLineEnd ls header.comment rest)
    (h : r.stream.tokens = hs ++ ls) :
    r.current.kind = .keyword .proc ∧ ∃ after,
      (Header.read r.current.location r.advance).result = (some header, after) ∧
        after.stream.tokens = rest ∧ after.depth = r.depth ∧ after.reports = r.reports := by
  obtain ⟨p, hs, rfl, hp, -⟩ := isHeading_cons hheading
  have hcurrent : r.current = p := Reading.current_of_tokens h
  have hcontent : r.current.kind.isLayout = false := by
    rw [hcurrent, hp]
    rfl
  have hgives := Header.read_gives hheading hline (Reading.advance_before h (hcurrent ▸ hcontent))
  have hfinishes := Header.read_finishes hp r.advance
  have hdepth := (Reading.Passes.advance hcontent).depth
  rw [hcurrent]
  refine ⟨hp, (Header.read p.location r.advance).after, Prod.ext hgives.value rfl, hgives.tokens, ?_⟩
  rw [Step.Finishes, hgives.value] at hfinishes
  cases hfinishes with
  | read hreads hrest hends =>
    rw [hends.depth, hreads.depth, hdepth, hends.reports, hreads.quiet True.intro,
      Reading.reports_advance]
    exact ⟨rfl, rfl⟩

theorem complete_procedure_iff {header : Header} {body : List Statement} :
    Complete (.procedure header body) ↔ body ≠ [] ∧ ∀ s ∈ body, s.Complete := by
  constructor
  · rintro ⟨⟩
    constructor <;> assumption
  · exact fun h => .procedure h.1 h.2

mutual

/-- A statement that is derived is read, and nothing else with it. -/
theorem exists_taken {place : Place} {ts rest : List Token} {s : Statement} :
    (hs : IsStatement false place ts s rest) → ∀ r : Reading, r.stream.tokens = ts →
      ∃ lead after, Taken place r s rest lead after
  | .line hs hline, r, h => exists_taken_line hs hline h
  | .procedure hheading hline hblock, r, h => by
    obtain ⟨hproc, after, hheader, htokens, hdepth, hreports⟩ := header_taken hheading hline h
    obtain ⟨hindent, htaken⟩ := readBlock_of_isBlock hblock after htokens
    have hdeeper : after.advance.depth = after.depth + 1 := by
      rw [Reading.depth_advance (by simp [hindent]), hindent]
      rfl
    refine ⟨.procedure, _, hproc, ?_, htaken.tokens, ?_, ?_, fun hcomplete => ?_⟩
    · simp only [read_procedure, hheader, if_pos hindent, htaken.value]
    · rw [htaken.depth, hdeeper, Nat.add_sub_cancel, hdepth]
    · rw [htaken.spotless, Reading.reports_advance, hreports, complete_procedure_iff]
    · rw [htaken.quiet (complete_procedure_iff.mp hcomplete), Reading.reports_advance, hreports]
  | .headerAlone _ hheading hline hindent, r, h => by
    obtain ⟨hproc, after, hheader, htokens, hdepth, hreports⟩ := header_taken hheading hline h
    have hne : after.current.kind ≠ .indent := by
      rw [Reading.kind_current, htokens]
      cases rest with
      | nil => simp
      | cons t rest => exact hindent t (by simp)
    refine ⟨.procedure, after.reportExpected (.token .indent), hproc, ?_, ?_, ?_, ?_, ?_⟩
    · simp only [read_procedure, hheader, if_neg hne]
    · rw [Reading.reportExpected, Reading.stream_report, htokens]
    · rw [Reading.reportExpected, Reading.depth_report, hdepth]
    · have := Reading.reports_report_ne_nil after after.current.location
        (.expected (.token .indent) after.current)
      simp [Reading.reportExpected, this, complete_procedure_iff]
    · simp [complete_procedure_iff]

theorem readBlock_of_isBlock {ts rest : List Token} {body : List Statement} :
    (hs : IsBlock false ts body rest) → ∀ r : Reading, r.stream.tokens = ts →
      r.current.kind = .indent ∧ BodyTaken r.advance.depth r.advance body rest
  | .intro hi hbody hu, r, h => by
    have hindent : r.current.kind = .indent := by rw [Reading.current_of_tokens h, hi]
    have htokens := Reading.tokens_advance (r := r) (by simp [hindent])
    rw [h, List.tail_cons] at htokens
    exact ⟨hindent, readBlock_of_isBody hbody _ r.advance _ _ htokens rfl hu⟩

/-- Statements one after another up to the end of their level. -/
theorem readBlock_of_isBody {ts us : List Token} {body : List Statement} :
    (hs : IsBody false ts body us) → ∀ (depth : Nat) (r : Reading) (u : Token) (rest : List Token),
      r.stream.tokens = ts → us = u :: rest → u.kind = .unindent → BodyTaken depth r body rest
  | .one hs, _, r, _, _, h, hus, hu => by
    obtain ⟨lead, after, htaken⟩ := exists_taken hs r h
    rw [hus] at htaken
    exact htaken.last hu
  | .more hs hrest, depth, r, u, rest, h, hus, hu => by
    obtain ⟨lead, after, htaken⟩ := exists_taken hs r h
    have hbody := readBlock_of_isBody hrest depth after u rest htaken.tokens hus hu
    exact htaken.cons hrest.body_ne_nil hbody

end

/-- A line whose first word is `module` goes on with an identifier. -/
theorem upcoming_of_isStatement {ts rest : List Token} {s : Statement} {r : Reading}
    (hs : IsStatement false .file ts s rest) (h : r.stream.tokens = ts)
    (hkind : r.current.kind = .identifier) : r.upcoming.kind = .identifier := by
  have hupcoming : r.upcoming.kind = leading r.stream.tokens.tail :=
    Reading.kind_current { r with stream := r.stream.tail }
  cases hs with
  | line hline =>
    cases hline with
    | moduleName ht htext hpath =>
      rw [hupcoming, h, List.cons_append, List.tail_cons]
      exact leading_of_names hpath _
    | consts ht | vars ht | comment ht | imports ht =>
      rw [Reading.current_of_tokens h, ht] at hkind
      cases hkind
  | procedure hheading | headerAlone _ hheading =>
    obtain ⟨p, hs, rfl, hp, -⟩ := isHeading_cons hheading
    rw [Reading.current_of_tokens h, hp] at hkind
    cases hkind

/-- A statement begins inside a line. -/
theorem leading_of_isStatement {strict : Bool} {place : Place} {ts rest : List Token} {s : Statement}
    (hs : IsStatement strict place ts s rest) : (leading ts).isLayout = false := by
  cases hs with
  | line hline =>
    cases hline with
    | consts ht | vars ht | returns ht | comment ht | imports ht | moduleName ht =>
      simp [ht, Kind.isLayout]
  | procedure hheading | headerAlone _ hheading =>
    obtain ⟨p, hs, rfl, hp, -⟩ := isHeading_cons hheading
    simp [hp, Kind.isLayout]

/-- What follows a statement of a file closes no level. -/
theorem leading_of_isFile {ts : List Token} {body : List Statement} (h : IsFile false ts body) :
    leading ts ≠ .unindent := by
  cases h with
  | nil => simp
  | newline ht => simp [ht]
  | statement hs =>
    intro hk
    have := leading_of_isStatement hs
    simp [hk, Kind.isLayout] at this

theorem readAllFrom_of_isFile {ts : List Token} {body : List Statement} (hs : IsFile false ts body)
    (done : List Statement) (r : Reading) (h : r.stream.tokens = ts) :
    (readAllFrom done r).1 = done.reverse ++ body ∧
      ((readAllFrom done r).2.reports = [] ↔ r.reports = [] ∧ ∀ s ∈ body, s.Complete) := by
  induction hs generalizing done r with
  | nil =>
    rw [readAllFrom_eof done (by rw [Reading.kind_current, h]; rfl)]
    simp
  | newline ht _ ih =>
    have hkind : r.current.kind = .newline := by rw [Reading.current_of_tokens h, ht]
    rw [(FileTurn.newline hkind).readAllFrom_eq done, ← Reading.reports_advance r]
    exact ih done r.advance (by rw [Reading.tokens_advance (by simp [hkind]), h, List.tail_cons])
  | statement hs hrest ih =>
    obtain ⟨lead, after, htaken⟩ := exists_taken hs r h
    have hlead : Lead.atTop? r = some lead := by
      refine Lead.atTop_of_opens htaken.opens ?_
      rintro rfl
      exact upcoming_of_isStatement hs h htaken.opens.2.1
    have hstray : after.skipStray r.depth = after := by
      refine if_neg ?_
      rintro ⟨-, hk⟩
      rw [Reading.kind_current, htaken.tokens] at hk
      exact leading_of_isFile hrest hk
    rw [(FileTurn.statement hlead htaken.read).readAllFrom_eq done, hstray]
    obtain ⟨hvalue, hspotless⟩ := ih _ after htaken.tokens
    rw [hvalue, hspotless, htaken.spotless]
    simp [and_assoc]

end Statement

end FirSyntax
