import FirSyntax.Proofs.Reading.Ranks

/-!
# Climbing and ranks

Climbing at the precedence of a rank reads what the rule of that rank does. The two are compared turn
by turn: after an operator both read an operand of the next rank, and either both fail or both go on
from the same expression.
-/
namespace FirSyntax.Expr

open Token
open ByRank (readFactors readSummands sign_cases)

section

variable {least : Nat} {left right : Expr} {op : Operator} {r s : Reading}

theorem exists_sign {k : Kind} (h : k.operator? = some op) :
    ∃ p, k = .punctuation p ∧ p.operator? = some op := by
  cases k with
  | punctuation p => exact ⟨p, rfl, h⟩
  | _ => cases h

/-- No operator binds more tightly than those of products. -/
theorem climb_tightest (left : Expr) (r : Reading) : climb 41 left r = .here left r := by
  cases hop : r.current.kind.operator? with
  | none => exact climb_of_none hop
  | some op =>
    have := op.precedence_cases
    exact climb_of_lt hop (by omega)

/-- The turn of climbing at an operator that lacks its right operand. -/
theorem result_climb_of_failure (hop : r.current.kind.operator? = some op)
    (hle : least ≤ op.precedence)
    (hright : ((readPrimary r.advance).andThen fun operand after h =>
      (climb (op.precedence + 1) operand after).within h).result = (none, s)) :
    (climb least left r).result = (none, s) := by
  rw [climb_of_le hop hle]
  cases hprimary : (readPrimary r.advance).result with
  | mk value after =>
    cases value with
    | none =>
      rw [Step.result_andThen_of_none hprimary] at hright
      exact (Step.result_andThen_of_none hprimary).trans hright
    | some operand =>
      obtain ⟨hbound, hclimb⟩ := Step.result_andThen (f := fun operand after h =>
        (climb (op.precedence + 1) operand after).within h) hprimary
      obtain ⟨_, hextend⟩ := Step.result_andThen (f := fun operand after h =>
        (if (op.precedence : Int) < after.current.kind.precedence then
          (climb (op.precedence + 1) operand after).within h
        else .done operand after h).andThen fun right after h =>
        (climb least (.binary op left right r.current.location) after).within h) hprimary
      refine hextend.trans (Step.result_andThen_of_none ?_)
      exact (result_extend hbound).trans (hclimb.symm.trans hright)

end

/-- Behind a primary nothing binds more tightly than an operator of products. -/
theorem result_climb_tightest (r : Reading) :
    ((readPrimary r).andThen fun operand after h => (climb 41 operand after).within h).result =
      (readPrimary r).result := by
  cases h : (readPrimary r).result with
  | mk value after =>
    cases value with
    | none => exact Step.result_andThen_of_none h
    | some operand =>
      obtain ⟨_, hclimb⟩ := Step.result_andThen
        (f := fun operand after h => (climb 41 operand after).within h) h
      rw [hclimb, climb_tightest]
      rfl

/-- Behind the operand of a sum comes no operator of products. -/
theorem operand_stops (r : Reading) {right : Expr} {s : Reading}
    (h : ((readPrimary r).andThen fun operand after h =>
      (climb 21 operand after).within h).result = (some right, s)) :
    ∀ op, s.current.kind.operator? = some op → op.precedence < 21 := by
  have hmeets : ((readPrimary r).andThen fun operand after h =>
      (climb 21 operand after).within h).Meets fun _ after =>
        ∀ op, after.current.kind.operator? = some op → op.precedence < 21 :=
    Step.Meets.andThen (.trivial (readPrimary r)) fun operand after h _ =>
      climb_stops 21 operand after
  obtain ⟨hvalue, hafter⟩ := Prod.mk.inj h
  exact hafter ▸ hmeets right hvalue

/-- What climbing does at an operator of products is what the reader of factors does there. -/
theorem factor_cases {least : Nat} {op : Operator} {r : Reading} {p : Punctuation} (left : Expr)
    (hkind : r.current.kind = .punctuation p) (hp : p.operator? = some op)
    (hsign : ByRank.productSign? p = p.operator?) (hprecedence : op.precedence = 40)
    (hle : least ≤ 40) (hprimary : readPrimary r.advance = ByRank.readPrimary r.advance) :
    (∃ s, (climb least left r).result = (none, s) ∧ (readFactors left r).result = (none, s)) ∨
      ∃ right s, s.remaining < r.remaining ∧
        (climb least left r).result =
          (climb least (.binary op left right r.current.location) s).result ∧
        (readFactors left r).result =
          (readFactors (.binary op left right r.current.location) s).result := by
  have hop : r.current.kind.operator? = some op := by
    rw [hkind]
    exact hp
  have hlt := Reading.remaining_advance_lt (Kind.ne_eof_of_operator hop)
  have hright := result_climb_tightest r.advance
  rw [hp] at hsign
  cases h : (readPrimary r.advance).result with
  | mk value s =>
    have hitem : (ByRank.readPrimary r.advance).result = (value, s) := by rw [← hprimary, h]
    rw [h, show (41 : Nat) = op.precedence + 1 by omega] at hright
    cases value with
    | none =>
      exact .inl ⟨s, result_climb_of_failure hop (by omega) hright,
        ByRank.readFolded_of_failure hkind hsign hitem⟩
    | some right =>
      have hrest := Step.remaining_of_result h
      exact .inr ⟨right, s, by omega, result_climb hop (by omega) hright,
        ByRank.readFolded_of_item hkind hsign hitem⟩

mutual

theorem result_read (r : Reading) : (read r).result = (ByRank.readSum r).result := by
  rw [read, ByRank.readSum, ByRank.readProduct, readPrimary_eq r]
  cases h : (ByRank.readPrimary r).result with
  | mk value after =>
    cases value with
    | none =>
      rw [Step.result_andThen_of_none h]
      exact (Step.result_andThen_of_none (Step.result_andThen_of_none h)).symm
    | some first =>
      have hle := Step.remaining_of_result h
      obtain ⟨_, hclimb⟩ := Step.result_andThen
        (f := fun first after h => (climb 0 first after).within h) h
      obtain ⟨_, hproduct⟩ := Step.result_andThen
        (f := fun first after h => (readFactors first after).within h) h
      refine hclimb.trans ((climb_sum first after).trans ?_)
      exact Step.result_andThen_congr hproduct.symm fun _ _ _ _ => rfl
termination_by 4 * r.remaining + 3
decreasing_by all_goals omega

/-- Climbing takes the factors behind a product first, and then the summands behind it. -/
theorem climb_sum (left : Expr) (r : Reading) :
    (climb 0 left r).result =
      ((readFactors left r).andThen fun product after h =>
        (readSummands product after).within h).result := by
  cases hop : r.current.kind.operator? with
  | none =>
    rw [climb_of_none hop, ByRank.result_summands_of_stop (by simp [hop])]
    exact (ByRank.readSummands_of_none hop).symm
  | some op =>
    obtain ⟨p, hkind, hp⟩ := exists_sign hop
    have hlt := Reading.remaining_advance_lt (Kind.ne_eof_of_operator hop)
    rcases sign_cases p with ⟨hsign, -, h20⟩ | ⟨hsign, -, h40⟩
    · -- An operator of sums ends the factors, and its right operand is a whole product.
      have hprecedence := h20 op hp
      rw [ByRank.result_summands_of_stop (by simp [hop, hprecedence])]
      rw [hp] at hsign
      have hoperand := climb_operand r.advance
      cases h : (ByRank.readProduct r.advance).result with
      | mk value s =>
        rw [h] at hoperand
        have hright := hoperand
        rw [show (21 : Nat) = op.precedence + 1 by omega] at hright
        cases value with
        | none =>
          rw [result_climb_of_failure hop (Nat.zero_le _) hright]
          exact (ByRank.readFolded_of_failure hkind hsign h).symm
        | some right =>
          have hle := Step.remaining_of_result h
          have hstops := operand_stops r.advance hoperand
          rw [result_climb hop (Nat.zero_le _) hright, climb_sum _ s,
            ByRank.result_summands_of_stop hstops]
          exact (ByRank.readFolded_of_item hkind hsign h).symm
    · rcases factor_cases left hkind hp hsign (h40 op hp) (Nat.zero_le 40)
          (readPrimary_eq r.advance) with ⟨s, hclimb, hfactors⟩ | ⟨right, s, hless, hclimb, hfactors⟩
      · rw [hclimb]
        exact (Step.result_andThen_of_none hfactors).symm
      · rw [hclimb, climb_sum _ s]
        exact Step.result_andThen_congr hfactors.symm fun _ _ _ _ => rfl
termination_by 4 * r.remaining
decreasing_by all_goals omega

/-- A primary and what binds to it more tightly than an operator of sums is a product. -/
theorem climb_operand (r : Reading) :
    ((readPrimary r).andThen fun operand after h => (climb 21 operand after).within h).result =
      (ByRank.readProduct r).result := by
  rw [ByRank.readProduct, readPrimary_eq r]
  cases h : (ByRank.readPrimary r).result with
  | mk value s =>
    cases value with
    | none => exact (Step.result_andThen_of_none h).trans (Step.result_andThen_of_none h).symm
    | some operand =>
      have hle := Step.remaining_of_result h
      obtain ⟨_, hclimb⟩ := Step.result_andThen
        (f := fun operand after h => (climb 21 operand after).within h) h
      obtain ⟨_, hfactors⟩ := Step.result_andThen
        (f := fun operand after h => (readFactors operand after).within h) h
      exact hclimb.trans ((climb_product operand s).trans hfactors.symm)
termination_by 4 * r.remaining + 3
decreasing_by all_goals omega

/-- Climbing above the precedence of sums takes the factors behind a product. -/
theorem climb_product (left : Expr) (r : Reading) :
    (climb 21 left r).result = (readFactors left r).result := by
  cases hop : r.current.kind.operator? with
  | none =>
    rw [climb_of_none hop, ByRank.readFactors_of_stop (by simp [hop])]
    rfl
  | some op =>
    obtain ⟨p, hkind, hp⟩ := exists_sign hop
    have hlt := Reading.remaining_advance_lt (Kind.ne_eof_of_operator hop)
    rcases sign_cases p with ⟨-, -, h20⟩ | ⟨hsign, -, h40⟩
    · have hless : op.precedence < 21 := by rw [h20 op hp]; decide
      rw [climb_of_lt hop hless, ByRank.readFactors_of_stop (by simp [hop, hless])]
      rfl
    · rcases factor_cases left hkind hp hsign (h40 op hp) (show 21 ≤ 40 by decide)
          (readPrimary_eq r.advance) with ⟨s, hclimb, hfactors⟩ | ⟨right, s, hless, hclimb, hfactors⟩
      · rw [hclimb, hfactors]
      · rw [hclimb, climb_product _ s, hfactors]
termination_by 4 * r.remaining
decreasing_by all_goals omega

theorem readPrimary_eq (r : Reading) : readPrimary r = ByRank.readPrimary r := by
  rw [readPrimary, ByRank.readPrimary, readAtom_eq r]
  exact Step.ext_result
    (Step.result_andThen_congr rfl fun atom after _ _ => ByRank.readMembers_eq atom after)
termination_by 4 * r.remaining + 2
decreasing_by all_goals omega

theorem readAtom_eq (r : Reading) : readAtom r = ByRank.readAtom r := by
  rw [readAtom]
  split
  · next hkind =>
    have hlt := Reading.remaining_advance_lt (r := r) (by simp [hkind])
    rw [ByRank.readAtom]
    split
    · exact Step.ext_result
        (Step.result_andThen_congr (result_read r.advance) fun _ _ _ _ => rfl)
    all_goals simp_all
  all_goals
    rw [ByRank.readAtom]
    split <;> simp_all
termination_by 4 * r.remaining + 1
decreasing_by all_goals omega

end

end FirSyntax.Expr
