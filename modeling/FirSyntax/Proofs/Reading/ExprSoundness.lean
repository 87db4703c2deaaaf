import FirSyntax.Proofs.Grammar.Line
import FirSyntax.Proofs.Reading.Passage
import FirSyntax.Reading.Expr

/-!
# Soundness of the rules of an expression

Whatever expression the reader returns is derived from the tokens that it consumed. Expressions are
the one place where the reader and the grammar are built differently: climbing extends an operand by
precedence, while the grammar has a rank for each level of precedence.
-/
namespace FirSyntax

open Token Grammar

namespace Reading

theorem expectName_obeys (r : Reading) : r.expectName.Obeys r IsName := by
  refine Step.Obeys.andThen (.refl r) (r.expect_obeys rfl) fun _ hreads hrule => ?_
  obtain ⟨rfl, hkind⟩ := hrule
  exact .read (hreads.congr rfl (by simp)) (.intro hkind)

theorem separated_obeys {α : Type} {sign : Punctuation}
    {item : (r : Reading) → Outcome α r.remaining} {Item : List Token → α → Prop} {ok : α → Prop}
    (hitem : ∀ r, (item r).Obeys r Item ok) (r : Reading) :
    (r.separated sign item).Obeys r (Separated sign Item) fun as => ∀ a ∈ as, ok a := by
  rw [separated]
  refine Step.Obeys.andThen (.refl r) (hitem r) fun {first ts after} h hreads hfirst => ?_
  split
  · next hsign =>
    have hlt := remaining_advance_lt (r := after) (by simp [hsign])
    have hadvance : after.Reads [after.current] True after.advance := .advance (by rw [hsign]; rfl)
    refine Step.Obeys.andThen (hreads.trans hadvance) (separated_obeys hitem after.advance)
      fun _ hreads hrest => ?_
    exact .read (hreads.congr (by simp) (by simp)) (.more hfirst hsign hrest)
  · exact .read (hreads.congr rfl (by simp)) (.one hfirst)
termination_by r.remaining
decreasing_by omega

end Reading

theorem Token.Kind.precedence_of_operator {k : Kind} {op : Operator} (h : k.operator? = some op) :
    k.precedence = op.precedence := by
  simp [Kind.precedence, h]

/-- The precedence of a token reaches that of an operator only when it is one. -/
theorem Token.Kind.operator_of_precedence {k : Kind} {op : Operator}
    (h : (op.precedence : Int) ≤ k.precedence) : ∃ op', k.operator? = some op' := by
  cases hk : k.operator? with
  | some op' => exact ⟨op', rfl⟩
  | none =>
    simp only [Kind.precedence, hk] at h
    omega

namespace Expr

theorem isExpr_ofIdentifier {t : Token} (h : t.kind = .identifier) :
    IsExpr .atom [t] (ofIdentifier t) := by
  unfold ofIdentifier
  split
  · next htrue => exact .truth (b := true) h htrue
  · next htrue =>
    split
    · next hfalse => exact .truth (b := false) h hfalse
    · next hfalse => exact .identifier h htrue hfalse

theorem readMembers_obeys {ls : List Token} {receiver : Expr} (hleft : IsExpr .primary ls receiver)
    (r : Reading) :
    (readMembers receiver r).Obeys r fun us e => IsExpr .primary (ls ++ us) e := by
  rw [readMembers]
  split
  · next hdot =>
    have hlt := Reading.remaining_advance_lt (r := r) (by simp [hdot])
    refine Step.Obeys.andThen (.advance (by rw [hdot]; rfl)) (Reading.expectName_obeys r.advance)
      fun h hreads hname => ?_
    refine Step.Obeys.after hreads (readMembers_obeys (hleft.member hdot hname) _) fun hrule => ?_
    exact ⟨by simpa using hrule, by simp⟩
  · exact Reading.here_obeys (by simpa using hleft)
termination_by r.remaining
decreasing_by omega

/-- Climbing stops in front of operators that bind less tightly than asked for. -/
theorem climb_stops (least : Nat) (left : Expr) (r : Reading) :
    (climb least left r).Meets fun _ after =>
      ∀ op, after.current.kind.operator? = some op → op.precedence < least := by
  rw [climb]
  split
  · next hop =>
    intro e _ op hop'
    cases hop.symm.trans hop'
  · next op hop =>
    split
    · next hlt =>
      intro e _ op' hop'
      cases hop.symm.trans hop'
      exact hlt
    · have hlt := Reading.remaining_advance_lt (Kind.ne_eof_of_operator hop)
      refine Step.Meets.andThen (.trivial (readPrimary r.advance)) fun operand after h _ => ?_
      refine Step.Meets.andThen (.trivial _) fun right after' h' _ => ?_
      exact climb_stops least (.binary op left right r.current.location) after'
termination_by r.remaining
decreasing_by omega

mutual

theorem read_obeys (r : Reading) : (read r).Obeys r (IsExpr .sum) := by
  rw [read]
  refine Step.Obeys.andThen (.refl r) (readPrimary_obeys r) fun {first ts after} h hreads hfirst => ?_
  refine Step.Obeys.after hreads
    (climbSum_obeys (.ofProduct (.ofPrimary hfirst)) after fun _ _ _ => .ofPrimary hfirst)
    fun hrule => ?_
  exact ⟨by simpa using hrule, by simp⟩
termination_by 4 * r.remaining + 3
decreasing_by all_goals omega

/-- Climbing from a product on takes in the factors that follow. -/
theorem climbProduct_obeys {ls : List Token} {left : Expr} (hleft : IsExpr .product ls left)
    (r : Reading) : (climb 21 left r).Obeys r fun us e => IsExpr .product (ls ++ us) e := by
  rw [climb]
  split
  · exact Reading.here_obeys (by simpa using hleft)
  · next op hop =>
    split
    · exact Reading.here_obeys (by simpa using hleft)
    · next hle =>
      have h40 : op.precedence = 40 := op.precedence_cases.resolve_left (by omega)
      have hlt := Reading.remaining_advance_lt (Kind.ne_eof_of_operator hop)
      refine Step.Obeys.andThen (.advance (Kind.isLayout_of_operator hop))
        (readPrimary_obeys r.advance) fun {operand ts after} h hreads hoperand => ?_
      have hnot : ¬ (op.precedence : Int) < after.current.kind.precedence := by
        intro hprec
        obtain ⟨op', hop'⟩ := Kind.operator_of_precedence (Int.le_of_lt hprec)
        have := op'.precedence_cases
        rw [Kind.precedence_of_operator hop'] at hprec
        omega
      rw [if_neg hnot]
      refine Step.Obeys.after hreads (climbProduct_obeys (hleft.product hop h40 hoperand) after)
        fun hrule => ?_
      exact ⟨by simpa using hrule, by simp⟩
termination_by 4 * r.remaining
decreasing_by all_goals omega

/-- Climbing from a sum on takes in the summands that follow. A factor may come first only when what
has been read is a product. -/
theorem climbSum_obeys {ls : List Token} {left : Expr} (hleft : IsExpr .sum ls left) (r : Reading)
    (hnext : ∀ op, r.current.kind.operator? = some op → op.precedence = 40 →
      IsExpr .product ls left) :
    (climb 0 left r).Obeys r fun us e => IsExpr .sum (ls ++ us) e := by
  rw [climb]
  split
  · exact Reading.here_obeys (by simpa using hleft)
  · next op hop =>
    rw [if_neg (Nat.not_lt_zero _)]
    have hlt := Reading.remaining_advance_lt (Kind.ne_eof_of_operator hop)
    refine Step.Obeys.andThen (.advance (Kind.isLayout_of_operator hop))
      (readPrimary_obeys r.advance) fun {operand ts after} h hreads hoperand => ?_
    have hsum {rs right} (h20 : op.precedence = 20) (hright : IsExpr .product rs right) :
        IsExpr .sum (ls ++ r.current :: rs) (.binary op left right r.current.location) :=
      hleft.sum hop h20 hright
    by_cases hprec : (op.precedence : Int) < after.current.kind.precedence
    · -- A summand is extended by the factors that follow before it is added.
      obtain ⟨op', hop'⟩ := Kind.operator_of_precedence (Int.le_of_lt hprec)
      rw [Kind.precedence_of_operator hop'] at hprec
      have h20 : op.precedence = 20 := by
        have := op.precedence_cases
        have := op'.precedence_cases
        omega
      rw [if_pos (by rwa [Kind.precedence_of_operator hop']), h20]
      refine Step.Obeys.andThenMeets hreads (climbProduct_obeys (.ofPrimary hoperand) after)
        (climb_stops 21 operand after) fun {right us after'} h hreads hright hstops => ?_
      refine Step.Obeys.after hreads (climbSum_obeys (hsum h20 hright) after' ?_) fun hrule => ?_
      · intro op'' hop'' h40
        have := hstops op'' hop''
        omega
      · exact ⟨by simpa using hrule, by simp⟩
    · rw [if_neg hprec]
      rcases op.precedence_cases with h20 | h40
      · refine Step.Obeys.after hreads (climbSum_obeys (hsum h20 (.ofPrimary hoperand)) after ?_)
          fun hrule => ?_
        · intro op' hop' h40
          rw [Kind.precedence_of_operator hop'] at hprec
          omega
        · exact ⟨by simpa using hrule, by simp⟩
      · have hproduct := (hnext op hop h40).product hop h40 hoperand
        refine Step.Obeys.after hreads
          (climbSum_obeys (.ofProduct hproduct) after fun _ _ _ => hproduct) fun hrule => ?_
        exact ⟨by simpa using hrule, by simp⟩
termination_by 4 * r.remaining
decreasing_by all_goals omega

/-- An atom with its members. -/
theorem readPrimary_obeys (r : Reading) : (readPrimary r).Obeys r (IsExpr .primary) := by
  rw [readPrimary]
  refine Step.Obeys.andThen (.refl r) (readAtom_obeys r) fun h hreads hatom => ?_
  refine Step.Obeys.after hreads (readMembers_obeys (.ofAtom hatom) _) fun hrule => ?_
  exact ⟨by simpa using hrule, by simp⟩
termination_by 4 * r.remaining + 2
decreasing_by all_goals omega

theorem readAtom_obeys (r : Reading) : (readAtom r).Obeys r (IsExpr .atom) := by
  rw [readAtom]
  split
  · next hkind =>
    have hlt := Reading.remaining_advance_lt (r := r) (by simp [hkind])
    refine Step.Obeys.andThen (.advance (by rw [hkind]; rfl)) (read_obeys r.advance)
      fun h hreads hinner => ?_
    refine Step.Obeys.andThen hreads (Reading.expect_obeys _ rfl) fun _ hreads hclose => ?_
    obtain ⟨rfl, hclose⟩ := hclose
    exact .read (hreads.congr (by simp) (by simp)) (.group hkind hinner hclose)
  · next hkind => exact Reading.taking_obeys (by rw [hkind]; rfl) (isExpr_ofIdentifier hkind)
  · next hkind => exact Reading.taking_obeys (by rw [hkind]; rfl) (.integer hkind)
  · next hkind => exact Reading.taking_obeys (by rw [hkind]; rfl) (.nil hkind)
  · exact Reading.refused_obeys ..
termination_by 4 * r.remaining + 1
decreasing_by all_goals omega

end

end Expr

end FirSyntax
