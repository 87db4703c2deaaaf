import FirSyntax.Proofs.Grammar.File
import FirSyntax.Proofs.Reading.ExprSoundness
import FirSyntax.Reading.Statement

/-!
# Soundness of the rules of a line

Whatever the reader returns for a clause, a header or a statement of one line is derived from the
tokens that it consumed.
-/
namespace FirSyntax

open Token Grammar

theorem DottedName.read_obeys (r : Reading) : (DottedName.read r).Obeys r IsPath := by
  unfold DottedName.read
  refine Step.Obeys.andThen (.refl r) (Reading.separated_obeys Reading.expectName_obeys r)
    fun _ hreads hrule => ?_
  exact .read (hreads.congr rfl (by simp)) hrule

theorem TypeRef.read_obeys (r : Reading) : (TypeRef.read r).Obeys r IsType := by
  unfold TypeRef.read
  by_cases hopt : r.current.kind = .keyword .optional
  · rw [Reading.accept_next_of_eq hopt]
    refine Step.Obeys.andThen (.advance (by rw [hopt]; rfl)) (DottedName.read_obeys r.advance)
      fun _ hreads hpath => ?_
    exact .read (hreads.congr rfl (by simp)) (.optional hopt hpath)
  · rw [Reading.accept_next_of_ne hopt]
    refine Step.Obeys.andThen (.refl r) (DottedName.read_obeys r) fun {path ts r'} _ hreads hpath => ?_
    cases ts with
    | nil => exact absurd rfl hpath.tokens_ne_nil
    | cons t ts =>
      have hcurrent : r.current = t := Reading.current_of_tokens hreads.tokens
      rw [hcurrent]
      exact .read (hreads.congr rfl (by simp)) (.plain hpath)

namespace Clause

/-- The names of a constant's clause are read without a diagnostic when there is one of them. -/
theorem readNames_obeys (constant : Bool) (r : Reading) :
    (readNames constant r).Obeys r (Separated .comma IsName)
      fun names => constant = true → ∃ name, names = [name] := by
  rw [readNames]
  refine Step.Obeys.andThen (.refl r) (Reading.expectName_obeys r)
    fun {first ts after} h hreads hfirst => ?_
  split
  · next hcomma =>
    have hlt : (skipComma constant after).remaining < after.remaining := by
      rw [remaining_skipComma]
      exact Reading.remaining_advance_lt (by simp [hcomma])
    have hskip : r.Reads (ts ++ [after.current]) (constant = false) (skipComma constant after) := by
      have hadvance : after.Reads [after.current] True after.advance := .advance (by rw [hcomma]; rfl)
      cases constant with
      | true =>
        exact hreads.report hadvance.toPasses (Reading.reports_advance after) .constantComma (by simp)
      | false => exact (hreads.trans hadvance).congr rfl (by simp)
    refine Step.Obeys.andThen hskip (readNames_obeys constant (skipComma constant after))
      fun _ hreads hrest => ?_
    refine .read (hreads.congr (by simp) ?_) (.more hfirst hcomma hrest)
    have := hrest.ne_nil
    cases constant <;> simp [this]
  · exact .read (hreads.congr rfl (by simp)) (.one hfirst)
termination_by r.remaining
decreasing_by omega

theorem readType_obeys (r : Reading) : (readType r).Obeys r IsTyping := by
  unfold readType
  by_cases hcolon : r.current.kind = .punctuation .colon
  · rw [Reading.accept_next_of_eq hcolon]
    refine Step.Obeys.after (.advance (by rw [hcolon]; rfl)) (TypeRef.read_obeys r.advance)
      fun hrule => ?_
    exact ⟨.given hcolon hrule, by simp⟩
  · rw [Reading.accept_next_of_ne hcolon]
    exact .read (.refl r) .absent

theorem readValue_obeys (r : Reading) : (readValue r).Obeys r IsInitial := by
  unfold readValue
  by_cases hequal : r.current.kind = .punctuation .equal
  · rw [Reading.accept_next_of_eq hequal]
    refine Step.Obeys.andThen (.advance (by rw [hequal]; rfl)) (Expr.read_obeys r.advance)
      fun _ hreads hrule => ?_
    exact .read (hreads.congr rfl (by simp)) (.given hequal hrule)
  · rw [Reading.accept_next_of_ne hequal]
    exact .read (.refl r) .absent

/-- A constant's clause with one name is at fault when it has no value. -/
theorem isConstant_iff (clause : Clause) :
    clause.IsConstant ↔ (∃ name, clause.names = [name]) ∧ clause.valueless? = none := by
  obtain ⟨names, type, value⟩ := clause
  unfold IsConstant
  refine and_congr_right fun hname => ?_
  obtain ⟨name, rfl⟩ := hname
  cases value <;> simp [valueless?]

/-- The name of a clause without a value is the first token of the clause. -/
theorem valueless_location {ns rest : List Token} {names : List Name} {type : TypeRef}
    {value : Option Expr} {name : Name} {r : Reading} (hnames : Separated .comma IsName ns names)
    (h : valueless? ⟨names, type, value⟩ = some name) (htokens : r.stream.tokens = ns ++ rest) :
    names = [name] ∧ name.location = r.current.location := by
  have hsingle : names = [name] := by
    unfold valueless? at h
    split at h
    · next hlist _ =>
      cases h
      exact hlist
    · cases h
  subst hsingle
  refine ⟨rfl, ?_⟩
  cases hnames with
  | one hname =>
    obtain ⟨-⟩ := hname
    rw [Reading.current_of_tokens htokens]
  | more _ _ hrest => exact absurd rfl hrest.ne_nil

/-- A clause is found at fault just when it is that of a constant and not fit to be. -/
theorem read_obeys (constant : Bool) (r : Reading) :
    (read constant r).Obeys r IsClause fun clause => constant = true → clause.IsConstant := by
  unfold read
  refine Step.Obeys.andThen (.refl r) (readNames_obeys constant r)
    fun {names ns r₁} _ hreads hnames => ?_
  refine Step.Obeys.andThen hreads (readType_obeys r₁) fun {type ts r₂} _ hreads htype => ?_
  refine Step.Obeys.andThen hreads (readValue_obeys r₂) fun {value vs r₃} _ hreads hvalue => ?_
  have hclause : IsClause (ns ++ (ts ++ vs)) ⟨names, type, value⟩ := .intro hnames htype hvalue
  have hreads' := hreads.congr (by simp : _ = ns ++ (ts ++ vs)) Iff.rfl
  rcases constant with _ | _
  · exact .read (hreads'.congr rfl (by simp)) hclause
  · cases hvalueless : valueless? ⟨names, type, value⟩ with
    | some name =>
      -- A single name and nothing reported yet: the diagnostic goes back to that name.
      have htokens := hreads'.tokens
      rw [List.append_assoc] at htokens
      obtain ⟨hsingle, hlocation⟩ := valueless_location hnames hvalueless htokens
      have hsame := hreads.quiet (by simp [hsingle])
      simp only [hvalueless, hlocation]
      exact .read (((Reading.Reads.refl r).report hreads'.toPasses hsame _
        (by simp [isConstant_iff, hvalueless])).congr (List.nil_append _) Iff.rfl) hclause
    | none =>
      simp only [hvalueless]
      exact .read (hreads'.congr rfl (by simp [isConstant_iff, hvalueless])) hclause

theorem readAll_obeys (constant : Bool) (r : Reading) :
    (readAll constant r).Obeys r (Separated .semicolon IsClause)
      fun clauses => ∀ clause ∈ clauses, constant = true → clause.IsConstant :=
  Reading.separated_obeys (read_obeys constant) r

end Clause

theorem Reading.finishLine_finishes (r : Reading) : r.finishLine.Finishes r IsRemark := by
  unfold Reading.finishLine
  by_cases hcomment : r.current.kind = .comment
  · rw [Reading.accept_next_of_eq hcomment, if_pos hcomment]
    refine Step.Finishes.map (.advance (by rw [hcomment]; rfl))
      (Reading.expectLineEnd_finishes r.advance) fun hts => ?_
    exact ⟨by simpa [hts] using IsRemark.given hcomment, by simp⟩
  · rw [Reading.accept_next_of_ne hcomment, if_neg hcomment]
    refine Step.Finishes.map (.refl r) (Reading.expectLineEnd_finishes r) fun hts => ?_
    exact ⟨by simpa [hts] using IsRemark.absent, by simp⟩

namespace Header

theorem readParameters_obeys (r : Reading) : (readParameters r).Obeys r IsParameters := by
  unfold readParameters
  split
  · exact Reading.here_obeys .none
  · refine Step.Obeys.after (.refl r) (Clause.readAll_obeys false r) fun hrule => ?_
    exact ⟨.some hrule, by simp⟩

theorem readResult_obeys (r : Reading) : (readResult r).Obeys r IsResult := by
  have hgiven : (TypeRef.read r).Obeys r IsResult :=
    Step.Obeys.after (.refl r) (TypeRef.read_obeys r) fun hrule => ⟨.given hrule, by simp⟩
  unfold readResult
  split
  · exact hgiven
  · exact hgiven
  · exact Reading.here_obeys .absent

/-- The tokens behind the first word `p` of a header, up to the end of its line. -/
def IsRest (p : Token) (ts : List Token) (header : Header) : Prop :=
  ∃ hs cs, ts = hs ++ cs ∧ IsHeading (p :: hs) header ∧ IsRemark cs header.comment

theorem read_finishes {p : Token} (hproc : p.kind = .keyword .proc) (r : Reading) :
    (read p.location r).Finishes r (IsRest p) := by
  unfold read
  refine Step.Obeys.andThenFinishes (.refl r) (Reading.expectName_obeys r)
    fun {name ns r₁} _ hreads hname => ?_
  refine Step.Obeys.andThenFinishes hreads (Reading.expect_obeys r₁ rfl)
    fun {o os r₂} _ hreads ho => ?_
  refine Step.Obeys.andThenFinishes hreads (readParameters_obeys r₂)
    fun {parameters ps r₃} _ hreads hparameters => ?_
  refine Step.Obeys.andThenFinishes hreads (Reading.expect_obeys r₃ rfl)
    fun {c cs r₄} _ hreads hc => ?_
  refine Step.Obeys.andThenFinishes hreads (Reading.expect_obeys r₄ rfl)
    fun {d ds r₅} _ hreads hd => ?_
  refine Step.Obeys.andThenFinishes hreads (readResult_obeys r₅)
    fun {result rs r₆} _ hreads hresult => ?_
  refine Step.Finishes.map hreads (Reading.finishLine_finishes r₆) fun {comment us} hremark => ?_
  obtain ⟨rfl, ho⟩ := ho
  obtain ⟨rfl, hc⟩ := hc
  obtain ⟨rfl, hd⟩ := hd
  refine ⟨⟨ns ++ o :: (ps ++ c :: d :: rs), us, by simp, ?_, hremark⟩, by simp⟩
  exact .intro hproc hname ho hparameters hc hd hresult

end Header

namespace Statement

/-- The first token of a statement, as its lead demands it. -/
def Lead.Opens : Lead → Place → Token → Prop
  | .consts, _, t => t.kind = .keyword .const
  | .vars, _, t => t.kind = .keyword .var
  | .procedure, _, t => t.kind = .keyword .proc
  | .returns, place, t => place = .block ∧ t.kind = .keyword .return
  | .comment, _, t => t.kind = .comment
  | .imports, place, t => place = .file ∧ t.kind = .keyword .import
  | .moduleName, place, t => place = .file ∧ t.kind = .identifier ∧ t.text = "module"

theorem Lead.opens_of_inBlock {t : Token} {lead : Lead} (h : inBlock? t.kind = some lead) :
    lead.Opens .block t := by
  unfold inBlock? at h
  split at h <;> cases h <;> simp [Opens, *]

theorem Lead.opens_of_atTop {r : Reading} {lead : Lead} (h : atTop? r = some lead) :
    lead.Opens .file r.current := by
  unfold atTop? at h
  split at h
  · cases h
    simpa [Opens]
  · cases h
    simpa [Opens]
  · cases h
    simpa [Opens]
  · cases h
    simpa [Opens]
  · cases h
    simpa [Opens]
  · next hkind =>
    split at h
    · next hmodule =>
      cases h
      exact ⟨rfl, hkind, hmodule.1⟩
    · cases h
  · cases h

/-- A statement begins with a token that stands inside a line. -/
theorem Lead.Opens.isLayout {lead : Lead} {place : Place} {t : Token} (h : lead.Opens place t) :
    t.kind.isLayout = false := by
  cases lead <;> simp only [Opens] at h <;> simp [h, Kind.isLayout]

theorem readReturned_obeys (r : Reading) : (readReturned r).Obeys r IsReturned := by
  unfold readReturned
  split
  · refine Step.Obeys.andThen (.refl r) (Expr.read_obeys r) fun _ hreads hrule => ?_
    exact .read (hreads.congr rfl (by simp)) (.given hrule)
  · exact Reading.here_obeys .absent

/-- The tokens behind the first token of a statement of one line, up to the end of the line. -/
def IsRest (place : Place) (t : Token) (ts : List Token) (s : Statement) : Prop :=
  ∃ fs cs comment, ts = fs ++ cs ∧ IsLine false place (t :: fs) comment s ∧ IsRemark cs comment

/-- What is made of the tokens in front and of the comment that follows them. -/
theorem finish_finishes {place : Place} {t : Token} {make : Option String → Statement}
    {r r' : Reading} {n : Nat} {fs : List Token} {p : Prop} {h : r'.remaining ≤ n}
    (hreads : r.Reads fs p r') (hline : ∀ comment, IsLine false place (t :: fs) comment (make comment))
    (hcomplete : ∀ comment, (make comment).Complete ↔ p) :
    (finish make r' h).Finishes r (IsRest place t) Complete := by
  unfold finish
  refine Step.Finishes.map hreads (Reading.finishLine_finishes r') fun {comment cs} hremark => ?_
  exact ⟨⟨fs, cs, comment, rfl, hline comment, hremark⟩, by simp [hcomplete]⟩

theorem complete_consts_iff {clauses : List Clause} {comment : Option String} {l : Location} :
    Complete (.consts clauses comment l) ↔ ∀ clause ∈ clauses, clause.IsConstant := by
  constructor
  · rintro ⟨⟩
    assumption
  · exact .consts

theorem read_finishes {lead : Lead} {place : Place} {first : Token} (hfirst : lead.Opens place first)
    (hlead : lead ≠ .procedure) (r : Reading) :
    (read lead first r).Finishes r (IsRest place first) Complete := by
  rw [read.eq_def]
  cases lead with
  | procedure => exact absurd rfl hlead
  | consts =>
    refine Step.Obeys.andThenFinishes (.refl r) (Clause.readAll_obeys true r)
      fun _ hreads hrule => ?_
    exact finish_finishes hreads (fun _ => .consts hfirst hrule (by simp))
      fun _ => by simp [complete_consts_iff]
  | vars =>
    refine Step.Obeys.andThenFinishes (.refl r) (Clause.readAll_obeys false r)
      fun _ hreads hrule => ?_
    exact finish_finishes hreads (fun _ => .vars hfirst hrule) fun _ => by simp [Complete.vars]
  | returns =>
    obtain ⟨rfl, hfirst⟩ := hfirst
    refine Step.Obeys.andThenFinishes (.refl r) (readReturned_obeys r) fun _ hreads hrule => ?_
    exact finish_finishes hreads (fun _ => .returns hfirst hrule) fun _ => by simp [Complete.returns]
  | imports =>
    obtain ⟨rfl, hfirst⟩ := hfirst
    refine Step.Obeys.andThenFinishes (.refl r)
      (Reading.separated_obeys DottedName.read_obeys r) fun _ hreads hrule => ?_
    exact finish_finishes hreads (fun _ => .imports hfirst hrule) fun _ => by simp [Complete.imports]
  | moduleName =>
    obtain ⟨rfl, hfirst, htext⟩ := hfirst
    refine Step.Obeys.andThenFinishes (.refl r) (DottedName.read_obeys r) fun _ hreads hrule => ?_
    exact finish_finishes hreads (fun _ => .moduleName hfirst htext hrule)
      fun _ => by simp [Complete.moduleName]
  | comment =>
    refine Step.Finishes.map (.refl r) (Reading.expectLineEnd_finishes r) fun hts => ?_
    exact ⟨⟨[], [], none, by simp [hts], .comment hfirst, .absent⟩, by simp [Complete.empty]⟩

end Statement

end FirSyntax
