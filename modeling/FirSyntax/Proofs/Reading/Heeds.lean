import FirSyntax.Proofs.Reading.Soundness

/-!
# How a reading heeds its tokens

Mismatched indentation is consumed only where a diagnostic already is, and whatever is reported of a
token names that token or is no word about what was found. Both hold of every rule, so they are kept
here as one relation between readings that is closed under one step after another.
-/
namespace FirSyntax

open Token Grammar

/-- The token that a diagnostic says was found. -/
def Cause.found? : Cause → Option Token
  | .expected _ found => some found
  | _ => none

namespace Reading

/-- Something was reported at the location. -/
def Noticed (r : Reading) (l : Location) : Prop := ∃ d ∈ r.reports, d.location = l

/-- `s` is reached from `r` without passing over a mismatch that was not noticed. A diagnostic says
what was found in front, or is about a token `t` since which nothing else has been reported; then that
is no mismatch. -/
inductive Heeds : Reading → Reading → Prop
  | refl (r) : Heeds r r
  | advance {r s} : Heeds r s → (s.current.kind = .indentMismatch → s.Noticed s.current.location) →
      Heeds r s.advance
  | expected {r s} (wanted : Expectation) : Heeds r s → Heeds r (s.reportExpected wanted)
  | fault {r t s} (c : Cause) : Heeds r t → Heeds t s → s.reports = t.reports →
      t.current.kind ≠ .indentMismatch → c.found? = none → Heeds r (s.report t.current.location c)

variable {r s t : Reading} {kind : Kind}

namespace Heeds

theorem trans (h : r.Heeds s) (h' : s.Heeds t) : r.Heeds t := by
  induction h' with
  | refl => exact h
  | advance _ hnoticed ih => exact .advance (ih h) hnoticed
  | expected wanted _ ih => exact .expected wanted (ih h)
  | fault c _ ht hsame hkind hfound ih => exact .fault c (ih h) ht hsame hkind hfound

end Heeds

theorem heeds_advance (h : r.current.kind ≠ .indentMismatch) : r.Heeds r.advance :=
  .advance (.refl r) fun hmismatch => absurd hmismatch h

theorem heeds_advance_of_eq (h : r.current.kind = kind) (hkind : kind ≠ .indentMismatch) :
    r.Heeds r.advance :=
  heeds_advance (h ▸ hkind)

theorem heeds_fault (c : Cause) (h : r.current.kind ≠ .indentMismatch) (hc : c.found? = none) :
    r.Heeds (r.report r.current.location c) :=
  .fault c (.refl r) (.refl r) rfl h hc

/-- A token may be passed over once it was reported. -/
theorem heeds_reported (wanted : Expectation) (r : Reading) :
    r.Heeds (r.reportExpected wanted).advance := by
  refine .advance (.expected wanted (.refl r)) fun _ => ?_
  rw [current_reportExpected]
  exact exists_mem_report r _ _

end Reading

variable {α β : Type} {n : Nat} {r : Reading}

namespace Step

theorem heeds_next {s : Step α n} {f : (a : α) → (r : Reading) → r.remaining ≤ n → Step β n}
    (hs : r.Heeds s.after) (hf : ∀ a (after : Reading) h, after.Heeds (f a after h).after) :
    r.Heeds (s.next f).after :=
  hs.trans (hf s.value s.after s.bounded)

theorem heeds_andThen {s : Outcome α n}
    {f : (a : α) → (r : Reading) → r.remaining ≤ n → Outcome β n} (hs : r.Heeds s.after)
    (hf : ∀ a (after : Reading) h, after.Heeds (f a after h).after) : r.Heeds (s.andThen f).after := by
  obtain ⟨value, after, h⟩ := s
  cases value with
  | some a => exact hs.trans (hf a after h)
  | none => exact hs

/-- One outcome after another, where the second depends on what the first has read. -/
theorem heeds_andThen_of_obeys {s : Outcome α n}
    {f : (a : α) → (r : Reading) → r.remaining ≤ n → Outcome β n} {r' : Reading} {us : List Token}
    {p : Prop} {Rule : List Token → α → Prop} {ok : α → Prop} (hpre : r.Reads us p r')
    (hr' : r.Heeds r') (hobeys : s.Obeys r' Rule ok) (hs : r'.Heeds s.after)
    (hf : ∀ a ts (after : Reading) h, r.Reads (us ++ ts) (p ∧ ok a) after → Rule ts a → r.Heeds after →
      r.Heeds (f a after h).after) : r.Heeds (s.andThen f).after := by
  obtain ⟨value, after, h⟩ := s
  cases hobeys with
  | read hreads hrule => exact hf _ _ _ h (hpre.trans hreads) hrule (hr'.trans hs)
  | refused => exact hr'.trans hs

end Step

namespace Reading

/-! ## Single tokens -/

theorem expect_heeds (r : Reading) {kind : Kind} (hkind : kind ≠ .indentMismatch) :
    r.Heeds (r.expect kind).after := by
  unfold expect
  split
  · next heq => exact heeds_advance_of_eq heq hkind
  · exact .expected _ (.refl r)

theorem expectName_heeds (r : Reading) : r.Heeds r.expectName.after :=
  Step.heeds_andThen (r.expect_heeds (by decide)) fun _ after _ => .refl after

theorem accept_heeds (r : Reading) {kind : Kind} (hkind : kind ≠ .indentMismatch) :
    r.Heeds (r.accept kind).after := by
  unfold accept
  split
  · next heq => exact heeds_advance_of_eq heq hkind
  · exact .refl r

theorem expectLineEnd_heeds (r : Reading) : r.Heeds r.expectLineEnd.after := by
  unfold expectLineEnd
  split
  · exact Step.heeds_next (r.accept_heeds (by decide)) fun _ after _ => .refl after
  · exact .expected _ (.refl r)

theorem finishLine_heeds (r : Reading) : r.Heeds r.finishLine.after :=
  Step.heeds_next (r.accept_heeds (by decide)) fun _ after _ =>
    Step.heeds_andThen (expectLineEnd_heeds after) fun _ after _ => .refl after

theorem separated_heeds {sign : Punctuation} {item : (r : Reading) → Outcome α r.remaining}
    (hitem : ∀ r : Reading, r.Heeds (item r).after) (r : Reading) : r.Heeds (r.separated sign item).after := by
  rw [separated]
  refine Step.heeds_andThen (hitem r) fun first after h => ?_
  split
  · next hsign =>
    have hlt := remaining_advance_lt (r := after) (by simp [hsign])
    refine Step.heeds_andThen ?_ fun _ after _ => .refl after
    exact (heeds_advance_of_eq hsign (by simp)).trans (separated_heeds hitem after.advance)
  · exact .refl after
termination_by r.remaining
decreasing_by omega

end Reading

/-! ## Expressions -/

namespace Expr

open Reading

theorem readMembers_heeds (receiver : Expr) (r : Reading) :
    r.Heeds (readMembers receiver r).after := by
  rw [readMembers]
  split
  · next hdot =>
    have hlt := remaining_advance_lt (r := r) (by simp [hdot])
    refine (heeds_advance_of_eq hdot (by simp)).trans ?_
    exact Step.heeds_andThen (expectName_heeds r.advance) fun member after h =>
      readMembers_heeds _ after
  · exact .refl r
termination_by r.remaining
decreasing_by omega

theorem ne_mismatch_of_operator {k : Kind} {op : Operator}
    (h : k.operator? = some op) : k ≠ .indentMismatch := by
  rintro rfl
  cases h

mutual

theorem read_heeds (r : Reading) : r.Heeds (read r).after := by
  rw [read]
  exact Step.heeds_andThen (readPrimary_heeds r) fun first after h => climb_heeds 0 first after
termination_by 4 * r.remaining + 3
decreasing_by all_goals omega

theorem climb_heeds (least : Nat) (left : Expr) (r : Reading) :
    r.Heeds (climb least left r).after := by
  rw [climb]
  split
  · exact .refl r
  · next op hop =>
    split
    · exact .refl r
    · have hlt := remaining_advance_lt (Kind.ne_eof_of_operator hop)
      refine (heeds_advance (ne_mismatch_of_operator hop)).trans ?_
      refine Step.heeds_andThen (readPrimary_heeds r.advance) fun operand after h => ?_
      refine Step.heeds_andThen ?_ fun right after h => climb_heeds least _ after
      split
      · exact climb_heeds _ operand after
      · exact .refl after
termination_by 4 * r.remaining
decreasing_by all_goals omega

theorem readPrimary_heeds (r : Reading) : r.Heeds (readPrimary r).after := by
  rw [readPrimary]
  exact Step.heeds_andThen (readAtom_heeds r) fun atom after _ => readMembers_heeds atom after
termination_by 4 * r.remaining + 2
decreasing_by all_goals omega

theorem readAtom_heeds (r : Reading) : r.Heeds (readAtom r).after := by
  rw [readAtom]
  split
  · next hkind =>
    have hlt := remaining_advance_lt (r := r) (by simp [hkind])
    refine (heeds_advance_of_eq hkind (by simp)).trans ?_
    refine Step.heeds_andThen (read_heeds r.advance) fun inner after h => ?_
    exact Step.heeds_andThen (after.expect_heeds (by simp)) fun _ after _ => .refl after
  · next hkind => exact heeds_advance_of_eq hkind (by simp)
  · next hkind => exact heeds_advance_of_eq hkind (by simp)
  · next hkind => exact heeds_advance_of_eq hkind (by simp)
  · exact .expected _ (.refl r)
termination_by 4 * r.remaining + 1
decreasing_by all_goals omega

end

end Expr

/-! ## Declarations -/

theorem DottedName.read_heeds (r : Reading) : r.Heeds (DottedName.read r).after :=
  Step.heeds_andThen (Reading.separated_heeds Reading.expectName_heeds r) fun _ after _ => .refl after

theorem TypeRef.read_heeds (r : Reading) : r.Heeds (TypeRef.read r).after :=
  Step.heeds_next (r.accept_heeds (by simp)) fun _ after _ =>
    Step.heeds_andThen (DottedName.read_heeds after) fun _ after _ => .refl after

namespace Clause

open Reading

theorem skipComma_heeds (constant : Bool) (h : r.current.kind = .punctuation .comma) :
    r.Heeds (skipComma constant r) := by
  have hadvance : r.Heeds r.advance := heeds_advance_of_eq h (by simp)
  cases constant with
  | true => exact .fault .constantComma (.refl r) hadvance (reports_advance r) (by simp [h]) rfl
  | false => exact hadvance

theorem readNames_heeds (constant : Bool) (r : Reading) :
    r.Heeds (readNames constant r).after := by
  rw [readNames]
  refine Step.heeds_andThen (expectName_heeds r) fun first after h => ?_
  split
  · next hcomma =>
    have hlt : (skipComma constant after).remaining < after.remaining := by
      rw [remaining_skipComma]
      exact remaining_advance_lt (by simp [hcomma])
    refine Step.heeds_andThen ?_ fun _ after _ => .refl after
    exact (skipComma_heeds constant hcomma).trans (readNames_heeds constant _)
  · exact .refl after
termination_by r.remaining
decreasing_by omega

theorem readType_heeds (r : Reading) : r.Heeds (readType r).after := by
  refine Step.heeds_next (r.accept_heeds (by simp)) fun given after h => ?_
  cases given with
  | true => exact TypeRef.read_heeds after
  | false => exact .refl after

theorem readValue_heeds (r : Reading) : r.Heeds (readValue r).after := by
  refine Step.heeds_next (r.accept_heeds (by simp)) fun given after h => ?_
  cases given with
  | true => exact Step.heeds_andThen (Expr.read_heeds after) fun _ after _ => .refl after
  | false => exact .refl after

theorem kind_of_names {ns rest : List Token} {names : List Name}
    (hnames : Separated .comma IsName ns names) (htokens : r.stream.tokens = ns ++ rest) :
    r.current.kind = .identifier := by
  cases hnames with
  | one hname =>
    obtain ⟨hkind⟩ := hname
    rwa [current_of_tokens htokens]
  | more hname =>
    obtain ⟨hkind⟩ := hname
    rwa [current_of_tokens htokens]

theorem read_heeds (constant : Bool) (r : Reading) : r.Heeds (read constant r).after := by
  unfold read
  refine Step.heeds_andThen_of_obeys (.refl r) (.refl r) (readNames_obeys constant r)
    (readNames_heeds constant r) fun names ns r₁ _ hreads hnames hheeds => ?_
  refine Step.heeds_andThen_of_obeys hreads hheeds (readType_obeys r₁) (readType_heeds r₁)
    fun type ts r₂ _ hreads _ hheeds => ?_
  refine Step.heeds_andThen_of_obeys hreads hheeds (readValue_obeys r₂) (readValue_heeds r₂)
    fun value vs r₃ _ hreads _ hheeds => ?_
  cases constant with
  | false => exact hheeds
  | true =>
    cases hvalueless : valueless? ⟨names, type, value⟩ with
    | none =>
      simp only [hvalueless]
      exact hheeds
    | some name =>
      have htokens := hreads.tokens
      rw [List.nil_append, List.append_assoc, List.append_assoc] at htokens
      obtain ⟨hsingle, hlocation⟩ := valueless_location hnames hvalueless htokens
      have hsame := hreads.quiet (by simp [hsingle])
      simp only [hvalueless, hlocation]
      exact .fault _ (.refl r) hheeds hsame (by simp [kind_of_names hnames htokens]) rfl

theorem readAll_heeds (constant : Bool) (r : Reading) : r.Heeds (readAll constant r).after :=
  separated_heeds (read_heeds constant) r

end Clause

namespace Header

open Reading

theorem readParameters_heeds (r : Reading) : r.Heeds (readParameters r).after := by
  unfold readParameters
  split
  · exact .refl r
  · exact Clause.readAll_heeds false r

theorem readResult_heeds (r : Reading) : r.Heeds (readResult r).after := by
  unfold readResult
  split
  · exact TypeRef.read_heeds r
  · exact TypeRef.read_heeds r
  · exact .refl r

theorem read_heeds (location : Location) (r : Reading) : r.Heeds (read location r).after := by
  unfold read
  refine Step.heeds_andThen (expectName_heeds r) fun _ r _ => ?_
  refine Step.heeds_andThen (r.expect_heeds (by simp)) fun _ r _ => ?_
  refine Step.heeds_andThen (readParameters_heeds r) fun _ r _ => ?_
  refine Step.heeds_andThen (r.expect_heeds (by simp)) fun _ r _ => ?_
  refine Step.heeds_andThen (r.expect_heeds (by simp)) fun _ r _ => ?_
  refine Step.heeds_andThen (readResult_heeds r) fun _ r _ => ?_
  exact Step.heeds_andThen (finishLine_heeds r) fun _ r _ => .refl r

end Header

end FirSyntax
