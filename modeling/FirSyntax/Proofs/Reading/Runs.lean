import FirSyntax.Proofs.Acceptance
import FirSyntax.Proofs.Grammar.Around

/-!
# Runs of turns

The statements of a level are read in a run of turns that starts and ends at the same depth. What is
derived in the strict grammar is read in such a run without a diagnostic. If one line of a derivation
is replaced by a line that is read in one turn, whatever its diagnostics are, then the statements
around it are read as before.
-/
namespace FirSyntax

open Token Grammar

namespace Reading

/-- Tokens are passed in front of the end of a file that stays where it is. -/
theorem Reaches.ending {P : Kind → Prop} {r s : Reading} (h : r.Reaches P s) :
    s.stream.ending = r.stream.ending := by
  obtain ⟨-, -, hending, -⟩ := h.exists_consumed
  exact hending

theorem skipStray_of_kind {r : Reading} (h : r.current.kind ≠ .unindent) (depth : Nat) :
    r.skipStray depth = r :=
  if_neg fun hstray => h hstray.2

end Reading

namespace Statement

/-- The statement that the current token opens at a place. -/
def Lead.at? (place : Place) (r : Reading) : Option Lead :=
  match place with
  | .file => atTop? r
  | .block => inBlock? r.current.kind

/-- What is wrong with a token that opens no statement at a place. -/
def missing : Place → Cause
  | .file => .notAtTopLevel
  | .block => .noStatement

/-- A turn at a place: what is added to the level, and where the next turn starts. -/
def Turn (place : Place) (r : Reading) (added : Option Statement) (t : Reading) : Prop :=
  match place with
  | .file => FileTurn r added t
  | .block => BlockTurn r.depth r added t

/-- Turns at one depth, with all that they add. -/
inductive Run (place : Place) : Reading → List Statement → Reading → Prop where
  | refl (r) : Run place r [] r
  | turn {r s t added body} : Turn place r added s → s.depth = r.depth → Run place s body t →
      Run place r (added.toList ++ body) t

variable {place : Place} {r t : Reading} {s : Statement} {added : Option Statement} {lead : Lead}
  {body : List Statement} {ts us rest after : List Token}

theorem Lead.opens_of_at (h : at? place r = some lead) : lead.Opens place r.current := by
  cases place with
  | file => exact opens_of_atTop h
  | block => exact opens_of_inBlock h

/-! ## Turns at a place -/

theorem turn_of_read (hlead : Lead.at? place r = some lead)
    (hread : (read lead r.current r.advance).result = (some s, t))
    (hstray : place = .file → t.current.kind ≠ .unindent) : Turn place r (some s) t := by
  cases place with
  | block => exact .statement hlead hread
  | file =>
    have hturn : FileTurn r (some s) (t.skipStray r.depth) := .statement hlead hread
    rwa [Reading.skipStray_of_kind (hstray rfl)] at hturn

theorem turn_of_failure (hlead : Lead.at? place r = some lead)
    (hread : (read lead r.current r.advance).result = (none, t))
    (hstray : place = .file → (t.skipLine r.depth).current.kind ≠ .unindent) :
    Turn place r none (t.skipLine r.depth) := by
  cases place with
  | block => exact .failure hlead hread
  | file =>
    have hturn : FileTurn r none ((t.skipLine r.depth).skipStray r.depth) := .failure hlead hread
    rwa [Reading.skipStray_of_kind (hstray rfl)] at hturn

theorem turn_of_unknown (hlead : Lead.at? place r = none)
    (hcontent : r.current.kind.isLayout = false)
    (hstray : place = .file →
      (skipUnknown (missing place) r.depth r).current.kind ≠ .unindent) :
    Turn place r none (skipUnknown (missing place) r.depth r) := by
  have hne : r.current.kind ≠ .eof := Kind.ne_eof_of_content hcontent
  have hlayout {k : Kind} (hk : k.isLayout = true) : r.current.kind ≠ k := by
    rintro rfl
    rw [hcontent] at hk
    cases hk
  cases place with
  | block => exact .unknown hlead hne (hlayout rfl) (hlayout rfl) (hlayout rfl)
  | file =>
    have hturn : FileTurn r none ((skipUnknown (missing .file) r.depth r).skipStray r.depth) :=
      .unknown hlead hne (hlayout rfl) (hlayout rfl) (hlayout rfl)
    rwa [Reading.skipStray_of_kind (hstray rfl)] at hturn

/-- An empty line of a file. -/
theorem turn_of_newline (h : r.current.kind = .newline) :
    Turn .file r none r.advance ∧ r.advance.depth = r.depth := by
  have hne : r.current.kind ≠ .eof := by simp [h]
  refine ⟨.newline h, ?_⟩
  rw [Reading.depth_advance hne, h]
  rfl

theorem Turn.comesTo (h : Turn place r added t) : r.ComesTo t := by
  cases place with
  | file => exact FileTurn.comesTo h
  | block => exact BlockTurn.comesTo h

/-- A statement that is derived is read in one turn. -/
theorem exists_turn (hs : IsStatement true place ts s rest)
    (hstray : place = .file → leading rest ≠ .unindent) (h : r.stream.tokens = ts) :
    ∃ t, Turn place r (some s) t ∧ t.stream.tokens = rest ∧ t.depth = r.depth ∧
      t.reports = r.reports := by
  obtain ⟨hlax, hcomplete⟩ := hs.lax
  obtain ⟨lead, t, htaken⟩ := exists_taken hlax r h
  have hlead : Lead.at? place r = some lead := by
    cases place with
    | block => exact Lead.inBlock_of_opens htaken.opens
    | file =>
      refine Lead.atTop_of_opens htaken.opens ?_
      rintro rfl
      exact upcoming_of_isStatement hlax h htaken.opens.2.1
  refine ⟨t, turn_of_read hlead htaken.read fun hfile => ?_, htaken.tokens, htaken.depth,
    htaken.quiet hcomplete⟩
  rw [Reading.kind_current, htaken.tokens]
  exact hstray hfile

/-! ## Runs -/

namespace Run

theorem depth (h : Run place r body t) : t.depth = r.depth := by
  induction h with
  | refl => rfl
  | turn _ hdepth _ ih => rw [ih, hdepth]

theorem ending (h : Run place r body t) : t.stream.ending = r.stream.ending := by
  induction h with
  | refl => rfl
  | turn hturn _ _ ih => rw [ih, hturn.comesTo.ending]

/-- A run that leads to the end of its block. -/
theorem readBlock_eq (h : Run .block r body t) (hunindent : t.current.kind = .unindent) :
    (readBlock r.depth r).result = (body, t.advance) := by
  induction h with
  | refl r => exact (BlockEnd.unindent hunindent).result
  | @turn r s t added body hturn hdepth _ ih =>
    obtain ⟨hvalue, hafter⟩ := Prod.mk.inj (ih hunindent)
    have hresult := BlockTurn.result hturn
    rw [hdepth] at hvalue hafter
    rw [hresult, hvalue, hafter]

theorem readAllFrom_eq (h : Run .file r body t) (done : List Statement) :
    readAllFrom done r = readAllFrom (body.reverse ++ done) t := by
  induction h generalizing done with
  | refl => rfl
  | @turn r s t added body hturn _ _ ih =>
    rw [FileTurn.readAllFrom_eq hturn, ih, List.reverse_append, List.append_assoc]
    cases added <;> rfl

end Run

/-- Statements that are derived are read in a run, without a diagnostic. -/
theorem exists_run (h : IsSequence place ts body rest) (hstops : place.Stops rest) :
    ∀ r : Reading, r.stream.tokens = ts →
      ∃ t, Run place r body t ∧ t.stream.tokens = rest ∧ t.reports = r.reports := by
  induction h with
  | nil => exact fun r hr => ⟨r, .refl r, hr, rfl⟩
  | newline ht _ ih =>
    intro r hr
    have hkind : r.current.kind = .newline := by rw [Reading.current_of_tokens hr, ht]
    obtain ⟨hturn, hdepth⟩ := turn_of_newline hkind
    obtain ⟨t, hrun, htokens, hreports⟩ :=
      ih hstops r.advance (by rw [Reading.tokens_advance (by simp [hkind]), hr, List.tail_cons])
    exact ⟨t, .turn hturn hdepth hrun, htokens, hreports.trans (Reading.reports_advance r)⟩
  | statement hs hrest ih =>
    intro r hr
    obtain ⟨s, hturn, htokens, hdepth, hreports⟩ := exists_turn hs (hrest.leading hstops).2 hr
    obtain ⟨t, hrun, htokens', hreports'⟩ := ih hstops s htokens
    exact ⟨t, .turn hturn hdepth hrun, htokens', hreports'.trans hreports⟩

/-- The same where other levels are closed behind the statements. -/
theorem exists_run_twin {ts' : List Token} (h : IsSequence place ts body rest)
    (hstops : place.Stops rest) (htwin : Twin ts ts') :
    leading ts' ≠ .indent ∧ (place = .file → leading ts' ≠ .unindent) ∧
      ∀ r : Reading, r.stream.tokens = ts' →
        ∃ t, Run place r body t ∧ Twin rest t.stream.tokens ∧ t.reports = r.reports := by
  obtain ⟨rest', h', htwin'⟩ := h.twin htwin
  have hstops' := hstops.twin htwin'
  obtain ⟨hindent, hunindent⟩ := h'.leading hstops'
  refine ⟨hindent, hunindent, fun r hr => ?_⟩
  obtain ⟨t, hrun, htokens, hreports⟩ := exists_run h' hstops' r hr
  exact ⟨t, hrun, htokens ▸ htwin', hreports⟩

/-- The header of a procedure leads to its block; where that has been read in a run up to its end,
the procedure has been read in one turn. -/
theorem exists_opened {hs ls : List Token} {i : Token} {header : Header}
    (hheading : IsHeading hs header) (hline : IsLineEnd ls header.comment (i :: us))
    (hi : i.kind = .indent) (hlead : Lead.at? place r = some .procedure)
    (hr : r.stream.tokens = hs ++ ls) :
    ∃ q : Reading, q.stream = ⟨us, r.stream.ending⟩ ∧ q.depth = r.depth + 1 ∧
      q.reports = r.reports ∧ ∀ {body t}, Run .block q body t → t.current.kind = .unindent →
        (place = .file → t.advance.current.kind ≠ .unindent) →
        Turn place r (some (.procedure header body)) t.advance ∧ t.advance.depth = r.depth := by
  obtain ⟨hproc, after, hheader, htokens, hdepth, hreports⟩ := header_taken hheading hline hr
  have hindent : after.current.kind = .indent := by rw [Reading.current_of_tokens htokens, hi]
  have hne : after.current.kind ≠ .eof := by simp [hindent]
  have hdeeper : after.advance.depth = r.depth + 1 := by
    rw [Reading.depth_advance hne, hindent, ← hdepth]
    rfl
  have hending : after.advance.stream.ending = r.stream.ending := by
    have hcomes := header_comesTo r.current.location r.advance
    rw [(Prod.mk.inj hheader).2] at hcomes
    exact (((Reading.comesTo_advance r).trans hcomes).trans (Reading.comesTo_advance after)).ending
  have hus : after.advance.stream.tokens = us := by
    rw [Reading.tokens_advance hne, htokens, List.tail_cons]
  refine ⟨after.advance, ?_, hdeeper, ?_, fun {body t} hrun hunindent hstray => ?_⟩
  · rw [← hus, ← hending]
  · rw [Reading.reports_advance, hreports]
  · obtain ⟨hbody, hclosed⟩ := Prod.mk.inj (hrun.readBlock_eq hunindent)
    have hread : (read .procedure r.current r.advance).result =
        (some (.procedure header body), t.advance) := by
      simp only [read_procedure, hheader, if_pos hindent, hbody, hclosed]
    refine ⟨turn_of_read hlead hread hstray, ?_⟩
    rw [Reading.depth_advance (by simp [hunindent]), hunindent, hrun.depth, hdeeper]
    rfl

/-! ## Another line in place of a statement -/

/-- In front of the end of a file at `ending`, the tokens `new` are read in one turn at any place,
up to the tokens `after`; the outcome is `P` of what is added and of what is reported. -/
def TurnsTo (ending : Location) (new after : List Token)
    (P : Option Statement → List Diagnostic → Prop) : Prop :=
  ∀ (place : Place) (r : Reading), r.stream = ⟨new, ending⟩ → r.reports = [] →
    leading after ≠ .indent → (place = .file → leading after ≠ .unindent) →
    ∃ added t, Turn place r added t ∧ t.stream.tokens = after ∧ t.depth = r.depth ∧ P added t.reports

/-- Around a line that is read in one turn everything is read as it is derived. -/
theorem run_around {ending : Location} {new after' : List Token}
    {P : Option Statement → List Diagnostic → Prop} (hnew : TurnsTo ending new after' P)
    (hcontent : (leading new).isLayout = false) (htwin : Twin after after')
    (h : Around s after place us body rest) (hstops : place.Stops rest) :
    ∀ r : Reading, r.stream = ⟨us ++ new, ending⟩ → r.reports = [] →
      ∃ added body' t, Run place r body' t ∧ Swapped s added body body' ∧
        Twin rest t.stream.tokens ∧ P added t.reports := by
  induction h with
  | @here place body rest hrest =>
    intro r hr hreports
    obtain ⟨hindent, hunindent, hbehind⟩ := exists_run_twin hrest hstops htwin
    obtain ⟨added, q, hturn, htokens, hdepth, hP⟩ := hnew place r hr hreports hindent hunindent
    obtain ⟨t, hrun, htwin', hreports'⟩ := hbehind q htokens
    exact ⟨added, _, t, .turn hturn hdepth hrun, .here, htwin', hreports' ▸ hP⟩
  | @newline t us body rest ht _ ih =>
    intro r hr hreports
    have hkind : r.current.kind = .newline := by
      rw [Reading.current_of_tokens (by rw [hr]; rfl), ht]
    obtain ⟨hturn, hdepth⟩ := turn_of_newline hkind
    have hstream : r.advance.stream = ⟨us ++ new, ending⟩ := by
      rw [Reading.advance_eq (by simp [hkind]), hr]
      rfl
    obtain ⟨added, body', t, hrun, hswapped, hrest, hP⟩ := ih hstops r.advance hstream (by simpa)
    exact ⟨added, body', t, .turn hturn hdepth hrun, hswapped, hrest, hP⟩
  | @later place fs e us t body rest he hs haround ih =>
    intro r hr hreports
    have hstatement := hs (us ++ new)
    obtain ⟨q, hturn, htokens, hdepth, hquiet⟩ :=
      exists_turn hstatement (fun _ => haround.leading hcontent) (r := r) (by simp [hr])
    have hending : q.stream.ending = ending :=
      hturn.comesTo.ending.trans (congrArg Stream.ending hr)
    have hstream : q.stream = ⟨us ++ new, ending⟩ := by rw [← htokens, ← hending]
    obtain ⟨added, body', t, hrun, hswapped, hrest, hP⟩ :=
      ih hstops q hstream (hquiet.trans hreports)
    exact ⟨added, _, t, .turn hturn hdepth hrun, .later hswapped, hrest, hP⟩
  | @inside place hs ls i us u mid header inner body rest hheading hline hi _ hu hmid ih =>
    intro r hr hreports
    have hlead : Lead.at? place r = some .procedure := by
      obtain ⟨p, hs, rfl, hp, -⟩ := isHeading_cons hheading
      have hkind : r.current.kind = .keyword .proc := by
        rw [Reading.current_of_tokens (by rw [hr]; rfl), hp]
      cases place <;> simp [Lead.at?, Lead.atTop?, Lead.inBlock?, hkind]
    have hending : r.stream.ending = ending := congrArg Stream.ending hr
    obtain ⟨q, hstream, hdepth, hquiet, hclose⟩ :=
      exists_opened hheading (hline (i :: (us ++ new))) hi hlead (by simp [hr])
    rw [hending] at hstream
    obtain ⟨added, inner', t, hrun, hswapped, hrest, hP⟩ :=
      ih (show leading (u :: mid) = .unindent from hu) q hstream (hquiet.trans hreports)
    obtain ⟨u', mid', htokens, hu', hmidtwin⟩ := hrest.of_unindent hu
    obtain ⟨-, hstray, hbehind⟩ := exists_run_twin hmid hstops hmidtwin
    have hunindent : t.current.kind = .unindent := by rw [Reading.current_of_tokens htokens, hu']
    have hafter : t.advance.stream.tokens = mid' := by
      rw [Reading.tokens_advance (by simp [hunindent]), htokens, List.tail_cons]
    obtain ⟨hturn, hdepth'⟩ := hclose hrun hunindent fun hfile => by
      rw [Reading.kind_current, hafter]
      exact hstray hfile
    obtain ⟨t', hrun', htwin', hreports'⟩ := hbehind t.advance hafter
    rw [Reading.reports_advance] at hreports'
    exact ⟨added, _, t', .turn hturn hdepth' hrun', .inside hswapped, htwin', hreports' ▸ hP⟩

end Statement

end FirSyntax
