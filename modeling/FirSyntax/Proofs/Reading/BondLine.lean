import FirSyntax.Proofs.Reading.Bond

/-!
# Lines in step

The rules of declarations and the ends of lines, for two readings that a bond holds together.
-/
namespace FirSyntax

open Token Grammar

variable {B : Bond} {r r' : Reading} {n m : Nat}

namespace Step.Lands

variable {α β : Type} {g : α → β} {s : Outcome α n} {s' : Outcome β m} {value : Option α}
  {after after' : Reading}

theorem of_result (hs : s.result = (value, after)) (hs' : s'.result = (value.map g, after'))
    (hlanded : ∀ a, value = some a → B.Past after after')
    (hfailed : value = none → B.Inside after after') : s.Lands B g s' := by
  obtain ⟨hvalue, hafter⟩ := Prod.mk.inj hs
  obtain ⟨hvalue', hafter'⟩ := Prod.mk.inj hs'
  subst hvalue hafter hafter'
  exact ⟨hvalue', hlanded, hfailed⟩

/-- A step that lands, in terms of results. -/
theorem exists_result (h : s.Lands B g s') (hs : s.result = (value, after)) :
    ∃ after', s'.result = (value.map g, after') ∧ (∀ a, value = some a → B.Past after after') ∧
      (value = none → B.Inside after after') := by
  obtain ⟨hvalue, hafter⟩ := Prod.mk.inj hs
  subst hvalue hafter
  exact ⟨s'.after, by rw [← h.value]; rfl, h.landed, h.failed⟩

end Step.Lands

theorem DottedName.read_matches (r r' : Reading) (h : B.Inside r r') :
    (DottedName.read r).Matches B (relocate B.place) (DottedName.read r') := by
  unfold DottedName.read
  exact (Reading.separated_matches (fun _ _ => Reading.expectName_matches) r r' h).andThen
    fun _ _ _ _ _ h => ⟨rfl, h⟩

theorem TypeRef.relocate_unspecified (B : Bond) :
    unspecified.relocate B.place = unspecified := by
  rw [relocate, unspecified, B.place_unwritten]

theorem TypeRef.read_matches (r r' : Reading) (h : B.Inside r r') :
    (TypeRef.read r).Matches B (relocate B.place) (TypeRef.read r') := by
  have htexts (path : DottedName) :
      (path.relocate B.place).names.map (·.text) = path.names.map (·.text) := by
    rw [DottedName.relocate, List.map_map]
    rfl
  unfold TypeRef.read
  rw [B.location h]
  by_cases hoptional : r.current.kind = .keyword .optional
  · rw [Reading.accept_next_of_eq hoptional, Reading.accept_next_of_eq ((B.kind_iff h rfl).mpr hoptional)]
    refine ((DottedName.read_matches _ _ (B.advance h (by rw [hoptional]; rfl))).within _ _).andThen
      fun path after after' _ _ hafter => ⟨?_, hafter⟩
    show some _ = some _
    rw [htexts]
    rfl
  · rw [Reading.accept_next_of_ne hoptional, Reading.accept_next_of_ne (B.kind_ne h rfl hoptional)]
    refine ((DottedName.read_matches r r' h).within _ _).andThen
      fun path after after' _ _ hafter => ⟨?_, hafter⟩
    show some _ = some _
    rw [htexts]
    rfl

namespace Clause

theorem skipComma_alongside (constant : Bool) (h : B.Inside r r')
    (hcomma : r.current.kind = .punctuation .comma) :
    B.Inside (skipComma constant r) (skipComma constant r') := by
  have hcontent : r.current.kind.isLayout = false := by rw [hcomma]; rfl
  have hnext := B.advance h hcontent
  cases constant with
  | false => exact hnext
  | true =>
    unfold skipComma
    rw [B.location h]
    exact B.report hnext (B.known_current h hcontent) .constantComma

theorem readNames_matches (constant : Bool) (r r' : Reading) (h : B.Inside r r') :
    (readNames constant r).Matches B (List.map (Name.relocate B.place))
      (readNames constant r') := by
  rw [readNames, readNames]
  refine (Reading.expectName_matches h).andThen fun first after after' hle hle' hafter => ?_
  by_cases hcomma : after.current.kind = .punctuation .comma
  · have hlt : (skipComma constant after).remaining < after.remaining := by
      rw [remaining_skipComma]
      exact Reading.remaining_advance_lt (by simp [hcomma])
    rw [dif_pos hcomma, dif_pos ((B.kind_iff hafter rfl).mpr hcomma)]
    have hskip := skipComma_alongside constant hafter hcomma
    exact ((readNames_matches constant _ _ hskip).within _ _).andThen fun _ _ _ _ _ h => ⟨rfl, h⟩
  · rw [dif_neg hcomma, dif_neg (by rwa [B.kind_iff hafter rfl])]
    exact ⟨rfl, hafter⟩
termination_by r.remaining
decreasing_by omega

/-- Every name of a list stands where one of its tokens does. -/
theorem exists_token {ts : List Token} {names : List Name} (h : Separated .comma IsName ts names)
    {name : Name} (hmem : name ∈ names) :
    ∃ t ∈ ts, t.kind = .identifier ∧ t.location = name.location := by
  induction h with
  | one hname =>
    cases hname with
    | intro hkind =>
      obtain rfl := List.mem_singleton.mp hmem
      exact ⟨_, List.mem_singleton_self _, hkind, rfl⟩
  | more hname _ _ ih =>
    cases hname with
    | intro hkind =>
      rcases List.mem_cons.mp hmem with rfl | hmem
      · exact ⟨_, by simp, hkind, rfl⟩
      · obtain ⟨t, ht, hlocation⟩ := ih hmem
        exact ⟨t, by simp [ht], hlocation⟩

theorem readNames_known (constant : Bool) (h : B.Inside r r') :
    (readNames constant r).Meets fun names _ => ∀ name ∈ names, B.Known name.location := by
  intro names hvalue name hmem
  have hobeys := readNames_obeys constant r
  rw [Step.Obeys, hvalue] at hobeys
  cases hobeys with
  | read hreads hnames =>
    obtain ⟨t, ht, hkind, hlocation⟩ := exists_token hnames hmem
    rw [← hlocation]
    refine B.known h t ?_ (by rw [hkind]; rfl)
    rw [hreads.tokens]
    exact List.mem_append_left _ ht

theorem readType_matches (r r' : Reading) (h : B.Inside r r') :
    (readType r).Matches B (TypeRef.relocate B.place) (readType r') := by
  unfold readType
  by_cases hcolon : r.current.kind = .punctuation .colon
  · rw [Reading.accept_next_of_eq hcolon, Reading.accept_next_of_eq ((B.kind_iff h rfl).mpr hcolon)]
    have hnext := B.advance h (by rw [hcolon]; rfl)
    exact (TypeRef.read_matches _ _ hnext).within (Reading.remaining_advance_le r)
      (Reading.remaining_advance_le r')
  · rw [Reading.accept_next_of_ne hcolon, Reading.accept_next_of_ne (B.kind_ne h rfl hcolon)]
    exact ⟨congrArg some (TypeRef.relocate_unspecified B).symm, h⟩

theorem readValue_matches (r r' : Reading) (h : B.Inside r r') :
    (readValue r).Matches B (Option.map (Expr.relocate B.place)) (readValue r') := by
  unfold readValue
  by_cases hequal : r.current.kind = .punctuation .equal
  · rw [Reading.accept_next_of_eq hequal, Reading.accept_next_of_eq ((B.kind_iff h rfl).mpr hequal)]
    exact ((Expr.read_matches _ _ (B.advance h (by rw [hequal]; rfl))).within _ _).andThen
      fun _ _ _ _ _ h => ⟨rfl, h⟩
  · rw [Reading.accept_next_of_ne hequal, Reading.accept_next_of_ne (B.kind_ne h rfl hequal)]
    exact ⟨rfl, h⟩

theorem valueless?_relocate (φ : Location → Location) (clause : Clause) :
    (clause.relocate φ).valueless? = clause.valueless?.map (Name.relocate φ) := by
  obtain ⟨names, type, value⟩ := clause
  match names, value with
  | [], none | [], some _ | [_], none | [_], some _ | _ :: _ :: _, none
  | _ :: _ :: _, some _ => rfl

theorem mem_of_valueless? {clause : Clause} {name : Name} (h : clause.valueless? = some name) :
    name ∈ clause.names := by
  unfold valueless? at h
  split at h
  · next hnames _ =>
    cases h
    rw [hnames]
    exact List.mem_singleton_self _
  · cases h

theorem read_matches (constant : Bool) (r r' : Reading) (h : B.Inside r r') :
    (read constant r).Matches B (relocate B.place) (read constant r') := by
  unfold read
  refine (readNames_matches constant r r' h).andThenMeets
    (readNames_known constant h) fun names r₁ r₁' _ _ hknown h₁ => ?_
  refine ((readType_matches r₁ r₁' h₁).within _ _).andThen fun type r₂ r₂' _ _ h₂ => ?_
  refine ((readValue_matches r₂ r₂' h₂).within _ _).andThen fun value r₃ r₃' _ _ h₃ => ?_
  have hsame := valueless?_relocate B.place ⟨names, type, value⟩
  rw [relocate] at hsame
  cases constant with
  | false => exact ⟨rfl, h₃⟩
  | true =>
    cases hvalueless : valueless? ⟨names, type, value⟩ with
    | none =>
      simp only [hsame, hvalueless, Option.map_none]
      exact ⟨rfl, h₃⟩
    | some name =>
      simp only [hsame, hvalueless, Option.map_some]
      exact ⟨rfl, B.report h₃ (hknown name (mem_of_valueless? hvalueless)) _⟩

theorem readAll_matches (constant : Bool) (r r' : Reading) (h : B.Inside r r') :
    (readAll constant r).Matches B (List.map (relocate B.place)) (readAll constant r') :=
  Reading.separated_matches (read_matches constant) r r' h

end Clause

namespace Reading

theorem expectLineEnd_ends (h : r.atLineEnd = true) :
    r.expectLineEnd.value = some () ∧ r.Ends r.expectLineEnd.after := by
  unfold expectLineEnd
  rw [if_pos h]
  by_cases hnewline : r.current.kind = .newline
  · rw [accept_next_of_eq hnewline]
    exact ⟨rfl, h, (if_pos hnewline).symm⟩
  · rw [accept_next_of_ne hnewline]
    exact ⟨rfl, h, (if_neg hnewline).symm⟩

theorem expectLineEnd_lands (h : B.Inside r r') :
    r.expectLineEnd.Lands B id r'.expectLineEnd := by
  have hsame := B.ends h
  by_cases hend : r.atLineEnd = true
  · obtain ⟨hvalue, hends⟩ := expectLineEnd_ends hend
    obtain ⟨hvalue', hends'⟩ := expectLineEnd_ends (hsame.trans hend)
    exact ⟨by rw [hvalue, hvalue']; rfl, fun _ _ => B.past h hends hends', by simp [hvalue]⟩
  · unfold expectLineEnd
    rw [hsame, if_neg hend, if_neg hend]
    exact (refused_matches h (by simp)).lands rfl

theorem finishLine_lands (h : B.Inside r r') : r.finishLine.Lands B id r'.finishLine := by
  unfold finishLine
  by_cases hcomment : r.current.kind = .comment
  · have hcontent : r.current.kind.isLayout = false := by rw [hcomment]; rfl
    have hcomment' := (B.kind_iff h rfl).mpr hcomment
    rw [accept_next_of_eq hcomment, accept_next_of_eq hcomment', if_pos hcomment,
      if_pos hcomment', B.text_eq h hcontent]
    exact ((expectLineEnd_lands (B.advance h hcontent)).within _ _).map fun _ => rfl
  · have hcomment' := B.kind_ne h rfl hcomment
    rw [accept_next_of_ne hcomment, accept_next_of_ne hcomment', if_neg hcomment,
      if_neg hcomment']
    exact ((expectLineEnd_lands h).within _ _).map fun _ => rfl

end Reading

namespace Header

theorem readParameters_matches (r r' : Reading) (h : B.Inside r r') :
    (readParameters r).Matches B (List.map (Clause.relocate B.place)) (readParameters r') := by
  unfold readParameters
  simp only [B.kind_iff h (k := .punctuation .rightParen) rfl]
  split
  · exact Reading.here_matches h rfl
  · exact Clause.readAll_matches false r r' h

theorem readResult_given {r : Reading}
    (h : r.current.kind = .identifier ∨ r.current.kind = .keyword .optional) :
    readResult r = TypeRef.read r := by
  rcases h with h | h <;> rw [readResult, h]

theorem readResult_absent {r : Reading}
    (h : ¬ (r.current.kind = .identifier ∨ r.current.kind = .keyword .optional)) :
    readResult r = .here TypeRef.unspecified r := by
  unfold readResult
  split <;> simp_all

theorem readResult_matches (r r' : Reading) (h : B.Inside r r') :
    (readResult r).Matches B (TypeRef.relocate B.place) (readResult r') := by
  by_cases hgiven : r.current.kind = .identifier ∨ r.current.kind = .keyword .optional
  · have hgiven' : r'.current.kind = .identifier ∨ r'.current.kind = .keyword .optional := by
      rwa [B.kind_iff h rfl, B.kind_iff h rfl]
    rw [readResult_given hgiven, readResult_given hgiven']
    exact TypeRef.read_matches r r' h
  · have hgiven' : ¬ (r'.current.kind = .identifier ∨ r'.current.kind = .keyword .optional) := by
      rwa [B.kind_iff h rfl, B.kind_iff h rfl]
    rw [readResult_absent hgiven, readResult_absent hgiven']
    exact Reading.here_matches h (TypeRef.relocate_unspecified B).symm

theorem read_lands (l : Location) (r r' : Reading) (h : B.Inside r r') :
    (read l r).Lands B (relocate B.place) (read (B.place l) r') := by
  unfold read
  refine (Reading.expectName_matches h).andThenLands fun name r₁ r₁' _ _ h₁ => ?_
  refine ((Reading.expect_matches h₁ rfl).within _ _).andThenLands fun _ r₂ r₂' _ _ h₂ => ?_
  refine ((readParameters_matches r₂ r₂' h₂).within _ _).andThenLands
    fun parameters r₃ r₃' _ _ h₃ => ?_
  refine ((Reading.expect_matches h₃ rfl).within _ _).andThenLands fun _ r₄ r₄' _ _ h₄ => ?_
  refine ((Reading.expect_matches h₄ rfl).within _ _).andThenLands fun _ r₅ r₅' _ _ h₅ => ?_
  refine ((readResult_matches r₅ r₅' h₅).within _ _).andThenLands fun result r₆ r₆' _ _ h₆ => ?_
  exact ((Reading.finishLine_lands h₆).within _ _).map fun _ => rfl

end Header

namespace Statement

theorem readReturned_matches (r r' : Reading) (h : B.Inside r r') :
    (readReturned r).Matches B (Option.map (Expr.relocate B.place)) (readReturned r') := by
  unfold readReturned
  rw [B.opensExpression_eq h]
  split
  · exact (Expr.read_matches r r' h).andThen fun _ _ _ _ _ h => ⟨rfl, h⟩
  · exact Reading.here_matches h rfl

theorem finish_lands {make make' : Option String → Statement} (h : B.Inside r r')
    (hn : r.remaining ≤ n) (hm : r'.remaining ≤ m)
    (hmake : ∀ comment, make' comment = (make comment).relocate B.place) :
    (finish make r hn).Lands B (relocate B.place) (finish make' r' hm) :=
  ((Reading.finishLine_lands h).within _ _).map hmake

/-- A line that holds a statement other than a procedure. -/
theorem read_lands {lead : Lead} (hlead : lead ≠ .procedure) (first : Token) (r r' : Reading)
    (h : B.Inside r r') :
    (read lead first r).Lands B (relocate B.place) (read lead (first.relocate B.place) r') := by
  cases lead with
  | procedure => exact absurd rfl hlead
  | consts =>
    rw [read, read]
    exact (Clause.readAll_matches true r r' h).andThenLands fun _ _ _ _ _ h =>
      finish_lands h _ _ fun _ => rfl
  | vars =>
    rw [read, read]
    exact (Clause.readAll_matches false r r' h).andThenLands fun _ _ _ _ _ h =>
      finish_lands h _ _ fun _ => rfl
  | returns =>
    rw [read, read]
    exact (readReturned_matches r r' h).andThenLands fun _ _ _ _ _ h =>
      finish_lands h _ _ fun _ => rfl
  | imports =>
    rw [read, read]
    exact (Reading.separated_matches DottedName.read_matches r r' h).andThenLands
      fun _ _ _ _ _ h => finish_lands h _ _ fun _ => rfl
  | moduleName =>
    rw [read, read]
    exact (DottedName.read_matches r r' h).andThenLands fun _ _ _ _ _ h =>
      finish_lands h _ _ fun _ => rfl
  | comment =>
    rw [read, read]
    exact (Reading.expectLineEnd_lands h).map fun _ => rfl

/-- What stands beneath a header is read alike from behind it: the same block, or none at all. -/
structure BlockLands (B : Bond) (r r' : Reading) : Prop where
  indent : r'.current.kind = .indent ↔ r.current.kind = .indent
  block : r.current.kind = .indent →
    (readBlock r'.advance.depth r'.advance).value =
        (readBlock r.advance.depth r.advance).value.map (relocate B.place) ∧
      B.Past (readBlock r.advance.depth r.advance).after (readBlock r'.advance.depth r'.advance).after
  missing : r.current.kind ≠ .indent →
    B.Past (r.reportExpected (.token .indent)) (r'.reportExpected (.token .indent))

/-- A procedure is read alike when its block is, wherever its header ends. -/
theorem read_procedure_lands (first : Token) (r r' : Reading) (h : B.Inside r r')
    (hblock : ∀ header after after', (Header.read first.location r).result = (some header, after) →
      (Header.read (B.place first.location) r').result = (some (header.relocate B.place), after') →
      B.Past after after' → BlockLands B after after') :
    (read .procedure first r).Lands B (relocate B.place)
      (read .procedure (first.relocate B.place) r') := by
  have hheader := Header.read_lands first.location r r' h
  have hresult := read_procedure first r
  have hresult' := read_procedure (first.relocate B.place) r'
  cases hr : (Header.read first.location r).result with
  | mk value after =>
    obtain ⟨after', hr', hlanded, hfailed⟩ := hheader.exists_result hr
    rw [hr] at hresult
    rw [Token.location_relocate, hr'] at hresult'
    cases value with
    | none => exact .of_result hresult hresult' (by simp) fun _ => hfailed rfl
    | some header =>
      have hbeneath := hblock header after after' hr hr' (hlanded header rfl)
      rw [Option.map_some] at hresult'
      simp only at hresult hresult'
      by_cases hindent : after.current.kind = .indent
      · obtain ⟨hbody, hpast⟩ := hbeneath.block hindent
        rw [if_pos hindent] at hresult
        rw [if_pos (hbeneath.indent.mpr hindent), hbody] at hresult'
        refine .of_result hresult ?_ (fun _ _ => hpast) (by simp)
        rw [Option.map_some, relocate, relocateAll_eq_map]
        exact hresult'
      · rw [if_neg hindent] at hresult
        rw [if_neg (by rwa [hbeneath.indent])] at hresult'
        exact .of_result hresult hresult' (fun _ _ => hbeneath.missing hindent) (by simp)

/-- The statement that a line opens at the top level is told from its first two tokens. -/
theorem Lead.atTop_congr (hne : r.current.kind ≠ .eof) (hkind : r'.current.kind = r.current.kind)
    (htext : r'.current.text = r.current.text)
    (hinside : r.current.kind = .identifier → B.Inside r.advance r'.advance) :
    atTop? r' = atTop? r := by
  have hupcoming {r : Reading} (hne : r.current.kind ≠ .eof) : r.upcoming = r.advance.current := by
    rw [Reading.advance_eq hne]
    rfl
  unfold atTop?
  rw [hkind, htext]
  split <;> try rfl
  next hidentifier =>
    rw [hupcoming hne, hupcoming (hkind ▸ hne)]
    simp only [B.kind_iff (hinside hidentifier) (k := .identifier) rfl]

end Statement

end FirSyntax
