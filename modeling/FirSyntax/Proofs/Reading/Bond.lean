import FirSyntax.Proofs.Reading.Completeness
import FirSyntax.Proofs.Tree.Relocation

/-!
# Readings in step

Two readings are read in step when every rule of a line takes the same tokens in both and gives the
same result, perhaps at other places. For that they need not agree on what ends the line. A bond is
a relation between readings that is kept by all that the rules do inside a line, together with one
that holds when the line is behind both readings. The rules follow for every bond.
-/
namespace FirSyntax

open Token Grammar

/-- What two readings have in common while a line is read, and afterwards. -/
structure Bond where
  /-- Where the second reading has what stands at a location for the first. -/
  place : Location → Location
  /-- The locations of which something may be reported in both. -/
  Known : Location → Prop
  /-- Both readings are inside a line. -/
  Inside : Reading → Reading → Prop
  /-- The line is behind both readings. -/
  Past : Reading → Reading → Prop
  place_unwritten : place .unwritten = .unwritten
  location {r r'} : Inside r r' → r'.current.location = place r.current.location
  current {r r'} : Inside r r' → r.current.kind.isLayout = false ∨ r'.current.kind.isLayout = false →
    r'.current = r.current.relocate place
  known {r r'} : Inside r r' → ∀ t ∈ r.stream.tokens, t.kind.isLayout = false → Known t.location
  ends {r r'} : Inside r r' → r'.atLineEnd = r.atLineEnd
  advance {r r'} : Inside r r' → r.current.kind.isLayout = false → Inside r.advance r'.advance
  report {r r'} : Inside r r' → ∀ {l}, Known l → ∀ c,
    Inside (r.report l c) (r'.report (place l) (c.relocate place))
  /-- Inside a line anything may be missed but the beginning of a block. -/
  refuse {r r'} : Inside r r' → ∀ {wanted}, wanted ≠ .token .indent →
    Inside (r.reportExpected wanted) (r'.reportExpected wanted)
  past {r r' s s'} : Inside r r' → r.Ends s → r'.Ends s' → Past s s'

variable {B : Bond} {r r' : Reading} {α β γ δ : Type} {n m : Nat}

namespace Bond

/-- Both readings are in front of the same kind, unless both are at the end of the line. -/
theorem kind_congr (h : B.Inside r r') (f : Kind → α) {a : α}
    (hf : ∀ k : Kind, k.isLayout = true → f k = a) : f r'.current.kind = f r.current.kind := by
  by_cases hk : r.current.kind.isLayout = false ∨ r'.current.kind.isLayout = false
  · rw [B.current h hk, Token.kind_relocate]
  · rw [not_or, Bool.not_eq_false, Bool.not_eq_false] at hk
    rw [hf _ hk.1, hf _ hk.2]

theorem kind_iff (h : B.Inside r r') {k : Kind} (hk : k.isLayout = false) :
    r'.current.kind = k ↔ r.current.kind = k := by
  have hsame := kind_congr h (fun k' => decide (k' = k)) (a := false) fun k' hlayout =>
    decide_eq_false (by rintro rfl; rw [hk] at hlayout; cases hlayout)
  simpa using hsame

theorem kind_ne (h : B.Inside r r') {k : Kind} (hk : k.isLayout = false)
    (hne : r.current.kind ≠ k) : r'.current.kind ≠ k := fun heq => hne ((kind_iff h hk).mp heq)

theorem operator_eq (h : B.Inside r r') : r'.current.kind.operator? = r.current.kind.operator? :=
  kind_congr h Kind.operator? fun k hk => by cases k <;> first | rfl | cases hk

theorem precedence_eq (h : B.Inside r r') : r'.current.kind.precedence = r.current.kind.precedence :=
  kind_congr h Kind.precedence fun k hk => by cases k <;> first | rfl | cases hk

theorem opensExpression_eq (h : B.Inside r r') :
    r'.current.kind.opensExpression = r.current.kind.opensExpression :=
  kind_congr h Kind.opensExpression fun k hk => by cases k <;> first | rfl | cases hk

theorem text_eq (h : B.Inside r r') (hk : r.current.kind.isLayout = false) :
    r'.current.text = r.current.text := by
  rw [B.current h (.inl hk)]
  rfl

theorem known_current (h : B.Inside r r') (hk : r.current.kind.isLayout = false) :
    B.Known r.current.location := by
  refine B.known h _ ?_ hk
  rw [Reading.tokens_eq_cons (Kind.ne_eof_of_content hk)]
  exact List.mem_cons_self

end Bond

/-- Two outcomes have the same result, at other places, and stop in step inside the line. -/
structure Step.Matches (B : Bond) (g : α → β) (s : Outcome α n) (s' : Outcome β m) : Prop where
  value : s'.value = s.value.map g
  after : B.Inside s.after s'.after

/-- Two outcomes have the same result, and stop in step: behind the line when there is a result, and
inside the line when there is none. -/
structure Step.Lands (B : Bond) (g : α → β) (s : Outcome α n) (s' : Outcome β m) : Prop where
  value : s'.value = s.value.map g
  landed : ∀ a, s.value = some a → B.Past s.after s'.after
  failed : s.value = none → B.Inside s.after s'.after

namespace Step

variable {g : α → β} {k : γ → δ} {s : Outcome α n} {s' : Outcome β m}

theorem Matches.andThenMeets {P : α → Reading → Prop}
    {f : (a : α) → (r : Reading) → r.remaining ≤ n → Outcome γ n}
    {f' : (b : β) → (r : Reading) → r.remaining ≤ m → Outcome δ m} (hs : s.Matches B g s')
    (hmeets : s.Meets P)
    (hf : ∀ a r r' h h', P a r → B.Inside r r' → (f a r h).Matches B k (f' (g a) r' h')) :
    (s.andThen f).Matches B k (s'.andThen f') := by
  obtain ⟨value, after, hle⟩ := s
  obtain ⟨value', after', hle'⟩ := s'
  obtain ⟨hvalue, hafter⟩ := hs
  obtain rfl : value' = value.map g := hvalue
  cases value with
  | none => exact ⟨rfl, hafter⟩
  | some a => exact hf a after after' hle hle' (hmeets a rfl) hafter

theorem Matches.andThen {f : (a : α) → (r : Reading) → r.remaining ≤ n → Outcome γ n}
    {f' : (b : β) → (r : Reading) → r.remaining ≤ m → Outcome δ m} (hs : s.Matches B g s')
    (hf : ∀ a r r' h h', B.Inside r r' → (f a r h).Matches B k (f' (g a) r' h')) :
    (s.andThen f).Matches B k (s'.andThen f') :=
  hs.andThenMeets (.trivial s) fun a r r' h h' _ => hf a r r' h h'

theorem Matches.andThenLands {f : (a : α) → (r : Reading) → r.remaining ≤ n → Outcome γ n}
    {f' : (b : β) → (r : Reading) → r.remaining ≤ m → Outcome δ m} (hs : s.Matches B g s')
    (hf : ∀ a r r' h h', B.Inside r r' → (f a r h).Lands B k (f' (g a) r' h')) :
    (s.andThen f).Lands B k (s'.andThen f') := by
  obtain ⟨value, after, hle⟩ := s
  obtain ⟨value', after', hle'⟩ := s'
  obtain ⟨hvalue, hafter⟩ := hs
  obtain rfl : value' = value.map g := hvalue
  cases value with
  | none => exact ⟨rfl, fun _ h => (by cases h), fun _ => hafter⟩
  | some a => exact hf a after after' hle hle' hafter

/-- Where there is no result, both are still inside the line. -/
theorem Matches.lands (hs : s.Matches B g s') (hnone : s.value = none) : s.Lands B g s' :=
  ⟨hs.value, by simp [hnone], fun _ => hs.after⟩

theorem Lands.map {f : α → γ} {f' : β → δ} (hs : s.Lands B g s') (hf : ∀ a, f' (g a) = k (f a)) :
    (s.andThen fun a after h => .done (f a) after h).Lands B k
      (s'.andThen fun b after h => .done (f' b) after h) := by
  obtain ⟨value, after, hle⟩ := s
  obtain ⟨value', after', hle'⟩ := s'
  obtain ⟨hvalue, hlanded, hfailed⟩ := hs
  obtain rfl : value' = value.map g := hvalue
  cases value with
  | none => exact ⟨rfl, fun _ h => (by cases h), fun _ => hfailed rfl⟩
  | some a => exact ⟨congrArg some (hf a), fun _ _ => hlanded a rfl, fun h => by cases h⟩

theorem Matches.within {n' m' : Nat} (hs : s.Matches B g s') (h : n ≤ n') (h' : m ≤ m') :
    (s.within h).Matches B g (s'.within h') :=
  ⟨hs.value, hs.after⟩

theorem Lands.within {n' m' : Nat} (hs : s.Lands B g s') (h : n ≤ n') (h' : m ≤ m') :
    (s.within h).Lands B g (s'.within h') :=
  ⟨hs.value, hs.landed, hs.failed⟩

end Step

namespace Reading

theorem refused_matches {g : α → β} (h : B.Inside r r') {wanted : Expectation}
    (hwanted : wanted ≠ .token .indent) :
    (Step.refused wanted r : Outcome α r.remaining).Matches B g
      (Step.refused wanted r' : Outcome β r'.remaining) :=
  ⟨rfl, B.refuse h hwanted⟩

theorem taking_matches {g : α → β} {a : α} {b : β} (h : B.Inside r r')
    (hk : r.current.kind.isLayout = false) (hb : b = g a) :
    (Step.taking a r).Matches B g (Step.taking b r') :=
  ⟨congrArg some hb, B.advance h hk⟩

theorem here_matches {g : α → β} {a : α} {b : β} (h : B.Inside r r') (hb : b = g a) :
    (Step.here a r).Matches B g (Step.here b r') :=
  ⟨congrArg some hb, h⟩

theorem expect_matches (h : B.Inside r r') {kind : Kind} (hkind : kind.isLayout = false) :
    (r.expect kind).Matches B (Token.relocate B.place) (r'.expect kind) := by
  unfold expect
  simp only [B.kind_iff h hkind]
  split
  · next heq => exact taking_matches h (heq ▸ hkind) (B.current h (.inl (heq ▸ hkind)))
  · refine refused_matches h fun hindent => ?_
    cases hindent
    cases hkind

theorem expectName_matches (h : B.Inside r r') :
    r.expectName.Matches B (Name.relocate B.place) r'.expectName :=
  (expect_matches h rfl).andThen fun _ _ _ _ _ h => ⟨rfl, h⟩

theorem separated_matches {sign : Punctuation} {g : α → β}
    {item : (r : Reading) → Outcome α r.remaining} {item' : (r : Reading) → Outcome β r.remaining}
    (hitem : ∀ r r', B.Inside r r' → (item r).Matches B g (item' r')) (r r' : Reading)
    (h : B.Inside r r') :
    (r.separated sign item).Matches B (List.map g) (r'.separated sign item') := by
  rw [separated, separated]
  refine (hitem r r' h).andThen fun first after after' hle hle' hafter => ?_
  by_cases hsign : after.current.kind = .punctuation sign
  · have hlt := remaining_advance_lt (r := after) (by simp [hsign])
    rw [dif_pos hsign, dif_pos ((B.kind_iff hafter rfl).mpr hsign)]
    have hnext := B.advance hafter (by rw [hsign]; rfl)
    exact ((separated_matches hitem _ _ hnext).within _ _).andThen fun _ _ _ _ _ h => ⟨rfl, h⟩
  · rw [dif_neg hsign, dif_neg (by rwa [B.kind_iff hafter rfl])]
    exact ⟨rfl, hafter⟩
termination_by r.remaining
decreasing_by omega

end Reading

namespace Expr

theorem relocate_ofIdentifier (φ : Location → Location) (t : Token) :
    ofIdentifier (t.relocate φ) = (ofIdentifier t).relocate φ := by
  unfold ofIdentifier
  rw [Token.text_relocate, Token.location_relocate]
  split
  · rfl
  · split <;> rfl

theorem readMembers_matches (receiver : Expr) (r r' : Reading) (h : B.Inside r r') :
    (readMembers receiver r).Matches B (relocate B.place)
      (readMembers (receiver.relocate B.place) r') := by
  rw [readMembers, readMembers]
  by_cases hdot : r.current.kind = .punctuation .dot
  · have hlt := Reading.remaining_advance_lt (r := r) (by simp [hdot])
    rw [dif_pos hdot, dif_pos ((B.kind_iff h rfl).mpr hdot), B.location h]
    apply Step.Matches.within
    refine (Reading.expectName_matches (B.advance h (by rw [hdot]; rfl))).andThen
      fun member after after' hle _ hafter => ?_
    exact (readMembers_matches _ after after' hafter).within _ _
  · rw [dif_neg hdot, dif_neg (by rwa [B.kind_iff h rfl])]
    exact Reading.here_matches h rfl
termination_by r.remaining
decreasing_by omega

mutual

theorem read_matches (r r' : Reading) (h : B.Inside r r') :
    (read r).Matches B (relocate B.place) (read r') := by
  rw [read, read]
  refine (readPrimary_matches r r' h).andThen fun first after after' hle _ hafter => ?_
  exact (climb_matches 0 first after after' hafter).within _ _
termination_by 4 * r.remaining + 3
decreasing_by all_goals omega

theorem climb_matches (least : Nat) (left : Expr) (r r' : Reading) (h : B.Inside r r') :
    (climb least left r).Matches B (relocate B.place)
      (climb least (left.relocate B.place) r') := by
  have hlocation := B.location h
  cases hop : r.current.kind.operator? with
  | none =>
    rw [climb_of_none hop, climb_of_none (by rwa [B.operator_eq h])]
    exact Reading.here_matches h rfl
  | some op =>
    have hop' : r'.current.kind.operator? = some op := by rwa [B.operator_eq h]
    by_cases hless : op.precedence < least
    · rw [climb_of_lt hop hless, climb_of_lt hop' hless]
      exact Reading.here_matches h rfl
    · have hlt := Reading.remaining_advance_lt (Kind.ne_eof_of_operator hop)
      have hnext := B.advance h (Kind.isLayout_of_operator hop)
      have hle := Nat.le_of_not_lt hless
      rw [climb_of_le hop hle, climb_of_le hop' hle]
      apply Step.Matches.within
      refine (readPrimary_matches r.advance r'.advance hnext).andThen
        fun operand after after' hle _ hafter => ?_
      rw [hlocation]
      refine Step.Matches.andThen (g := relocate B.place) ?_ fun right after₂ after₂' hle _ hafter => ?_
      · rw [B.precedence_eq hafter]
        split
        · exact (climb_matches _ operand after after' hafter).within _ _
        · exact ⟨rfl, hafter⟩
      · exact (climb_matches least _ after₂ after₂' hafter).within _ _
termination_by 4 * r.remaining
decreasing_by all_goals omega

theorem readPrimary_matches (r r' : Reading) (h : B.Inside r r') :
    (readPrimary r).Matches B (relocate B.place) (readPrimary r') := by
  rw [readPrimary, readPrimary]
  refine (readAtom_matches r r' h).andThen fun atom after after' hle _ hafter => ?_
  exact (readMembers_matches atom after after' hafter).within _ _
termination_by 4 * r.remaining + 2
decreasing_by all_goals omega

theorem readAtom_matches (r r' : Reading) (h : B.Inside r r') :
    (readAtom r).Matches B (relocate B.place) (readAtom r') := by
  by_cases hidentifier : r.current.kind = .identifier
  · have hcurrent := B.current h (.inl (by rw [hidentifier]; rfl))
    rw [readAtom_identifier hidentifier, readAtom_identifier ((B.kind_iff h rfl).mpr hidentifier),
      hcurrent, relocate_ofIdentifier]
    exact Reading.taking_matches h (by rw [hidentifier]; rfl) rfl
  by_cases hinteger : r.current.kind = .integer
  · have hcurrent := B.current h (.inl (by rw [hinteger]; rfl))
    rw [readAtom_integer hinteger, readAtom_integer ((B.kind_iff h rfl).mpr hinteger), hcurrent]
    exact Reading.taking_matches h (by rw [hinteger]; rfl) rfl
  by_cases hnil : r.current.kind = .keyword .nil
  · rw [readAtom_nil hnil, readAtom_nil ((B.kind_iff h rfl).mpr hnil), B.location h]
    exact Reading.taking_matches h (by rw [hnil]; rfl) rfl
  by_cases hopen : r.current.kind = .punctuation .leftParen
  · have hlt := Reading.remaining_advance_lt (r := r) (by simp [hopen])
    rw [readAtom_leftParen hopen, readAtom_leftParen ((B.kind_iff h rfl).mpr hopen)]
    apply Step.Matches.within
    refine (read_matches r.advance r'.advance (B.advance h (by rw [hopen]; rfl))).andThen
      fun inner after after' hle _ hafter => ?_
    exact ((Reading.expect_matches hafter rfl).within _ _).andThen fun _ _ _ _ _ h => ⟨rfl, h⟩
  · have hnot : r.current.kind.opensExpression = false := by
      unfold Kind.opensExpression
      split <;> simp_all
    rw [readAtom_refused hnot, readAtom_refused (by rwa [B.opensExpression_eq h])]
    exact Reading.refused_matches h (by simp)
termination_by 4 * r.remaining + 1
decreasing_by all_goals omega

end

end Expr

end FirSyntax
