import FirSyntax.Proofs.Reading.ExprSoundness
import FirSyntax.Proofs.Reading.Taking

/-!
# Completeness of the rules of an expression

Tokens that derive an expression are read as that expression, provided that what follows is neither
a dot nor an operator. Climbing goes through the ranks of the derivation: an operand that is derived
below an operator is as long as climbing lets it get.
-/
namespace FirSyntax

open Token Grammar

namespace Expr

variable {rest : List Token}

theorem readMembers_takes {e : Expr} {r : Reading} (h : r.Before rest)
    (hdot : leading rest ≠ .punctuation .dot) : (readMembers e r).Takes e rest := by
  rw [readMembers, dif_neg (by rwa [h.leading])]
  exact ⟨rfl, h⟩

/-! Climbing at an operator, or where none stands. -/

theorem climb_of_none {least : Nat} {left : Expr} {r : Reading}
    (h : r.current.kind.operator? = none) : climb least left r = .here left r := by
  rw [climb]
  split
  · rfl
  · next hop => cases h.symm.trans hop

theorem climb_of_lt {least : Nat} {left : Expr} {op : Operator} {r : Reading}
    (h : r.current.kind.operator? = some op) (hlt : op.precedence < least) :
    climb least left r = .here left r := by
  rw [climb]
  split
  · rfl
  · next hop =>
    cases h.symm.trans hop
    exact if_pos hlt

/-- An operator that binds tightly enough takes its right operand and the climb goes on. -/
theorem climb_of_le {least : Nat} {left : Expr} {op : Operator} {r : Reading}
    (h : r.current.kind.operator? = some op) (hle : least ≤ op.precedence) :
    climb least left r =
      ((readPrimary r.advance).andThen fun operand after h =>
        (if (op.precedence : Int) < after.current.kind.precedence then
          (climb (op.precedence + 1) operand after).within h
        else .done operand after h).andThen fun right after h =>
        (climb least (.binary op left right r.current.location) after).within h).within
          (Reading.remaining_advance_le r) := by
  rw [climb]
  split
  · next hop => cases h.symm.trans hop
  · next hop =>
    cases h.symm.trans hop
    exact if_neg (Nat.not_lt_of_le hle)

theorem climb_takes {least : Nat} {e : Expr} {r : Reading} (h : r.Before rest)
    (hstop : ∀ op, (leading rest).operator? = some op → op.precedence < least) :
    (climb least e r).Takes e rest := by
  rw [← h.leading] at hstop
  cases hop : r.current.kind.operator? with
  | none =>
    rw [climb_of_none hop]
    exact ⟨rfl, h⟩
  | some op =>
    rw [climb_of_lt hop (hstop op hop)]
    exact ⟨rfl, h⟩

/-- An operand extended by the operators that bind more tightly than `op`, if there are any. -/
theorem result_extend {op : Operator} {operand : Expr} {r : Reading} {n : Nat}
    (h : r.remaining ≤ n) :
    (if (op.precedence : Int) < r.current.kind.precedence then
        (climb (op.precedence + 1) operand r).within h
      else .done operand r h).result = (climb (op.precedence + 1) operand r).result := by
  split
  · rfl
  · next hnot =>
    cases hop : r.current.kind.operator? with
    | none =>
      rw [climb_of_none hop]
      rfl
    | some op' =>
      rw [Kind.precedence_of_operator hop] at hnot
      rw [climb_of_lt hop (by omega)]
      rfl

/-- The turn of climbing at an operator that binds tightly enough. -/
theorem result_climb {least : Nat} {left right : Expr} {op : Operator} {r s : Reading}
    (hop : r.current.kind.operator? = some op) (hle : least ≤ op.precedence)
    (hright : ((readPrimary r.advance).andThen fun operand after h =>
      (climb (op.precedence + 1) operand after).within h).result = (some right, s)) :
    (climb least left r).result =
      (climb least (.binary op left right r.current.location) s).result := by
  rw [climb_of_le hop hle]
  cases hprimary : readPrimary r.advance with
  | mk value after hbound =>
    rw [hprimary] at hright
    cases value with
    | none => cases hright
    | some operand =>
      obtain ⟨_, hresult⟩ := Step.result_andThen
        (f := fun right after h =>
          (climb least (.binary op left right r.current.location) after).within h)
        ((result_extend hbound).trans hright)
      exact hresult

/-- What it means for the tokens `ts` in front of a reading to be read as `e`: for each rank, the
reader goes on from `e` as it would have done from its first atom. -/
def Continues : Rank → List Token → Expr → Prop
  | .atom, ts, e => ∀ r rest, r.stream.tokens = ts ++ rest → (readAtom r).Takes e rest
  | .primary, ts, e => ∀ r rest, r.stream.tokens = ts ++ rest →
      ∃ r', r'.Before rest ∧ (readPrimary r).result = (readMembers e r').result
  | .product, ts, e => ∀ least r rest, least ≤ 40 → leading rest ≠ .punctuation .dot →
      r.stream.tokens = ts ++ rest → ∃ r', r'.Before rest ∧
        ((readPrimary r).andThen fun first after h => (climb least first after).within h).result =
          (climb least e r').result
  | .sum, ts, e => ∀ r rest, leading rest ≠ .punctuation .dot →
      (∀ op, (leading rest).operator? = some op → op.precedence = 20) →
      r.stream.tokens = ts ++ rest → ∃ r', r'.Before rest ∧
        ((readPrimary r).andThen fun first after h => (climb 0 first after).within h).result =
          (climb 0 e r').result

/-- A primary that is read is the first operand of the operators behind it. -/
theorem result_readPrimary {least : Nat} {e : Expr} {r : Reading} (h : (readPrimary r).Takes e rest) :
    ∃ r', r'.Before rest ∧
      ((readPrimary r).andThen fun first after h => (climb least first after).within h).result =
        (climb least e r').result := by
  obtain ⟨_, hresult⟩ := Step.result_andThen
    (f := fun first after h => (climb least first after).within h) h.result
  exact ⟨_, h.after, hresult⟩

/-- An operator is read with the operand behind it, up to a token that does not bind the operand
more tightly. -/
theorem climb_binary {least : Nat} {l e : Expr} {op : Operator} {t : Token} {ts : List Token}
    {s s' : Reading} (hs : s.Before (t :: ts)) (hop : t.kind.operator? = some op)
    (hle : least ≤ op.precedence)
    (hright : ((readPrimary s.advance).andThen fun operand after h =>
      (climb (op.precedence + 1) operand after).within h).result =
        (climb (op.precedence + 1) e s').result) (hs' : s'.Before rest)
    (hstop : ∀ op', (leading rest).operator? = some op' → op'.precedence < op.precedence + 1) :
    ∃ r', r'.Before rest ∧
      (climb least l s).result = (climb least (.binary op l e t.location) r').result := by
  have htakes : (climb (op.precedence + 1) e s').Takes e rest := climb_takes hs' hstop
  have hkind : s.current.kind.operator? = some op := by rwa [hs.current]
  refine ⟨_, htakes.after, ?_⟩
  rw [result_climb hkind hle (hright.trans htakes.result), hs.current]

/-! Each kind of a token in front of an atom decides what is read. -/

theorem readAtom_identifier {r : Reading} (h : r.current.kind = .identifier) :
    readAtom r = .taking (ofIdentifier r.current) r := by
  rw [readAtom]
  split <;> simp_all

theorem readAtom_integer {r : Reading} (h : r.current.kind = .integer) :
    readAtom r = .taking (.int (Decimal.value r.current.text) r.current.location) r := by
  rw [readAtom]
  split <;> simp_all

theorem readAtom_nil {r : Reading} (h : r.current.kind = .keyword .nil) :
    readAtom r = .taking (.nil r.current.location) r := by
  rw [readAtom]
  split <;> simp_all

theorem readAtom_leftParen {r : Reading} (h : r.current.kind = .punctuation .leftParen) :
    readAtom r = ((read r.advance).andThen fun inner after h =>
      ((after.expect (.punctuation .rightParen)).within h).andThen fun _ after h =>
      .done inner after h).within (Reading.remaining_advance_le r) := by
  rw [readAtom]
  split <;> simp_all

theorem readAtom_refused {r : Reading} (h : r.current.kind.opensExpression = false) :
    readAtom r = .refused .expression r := by
  rw [readAtom]
  split <;> simp_all [Kind.opensExpression]

theorem readAtom_group {t u : Token} {ts rest : List Token} {e : Expr} {r : Reading}
    (hr : r.stream.tokens = t :: ts) (ht : t.kind = .punctuation .leftParen)
    (hread : (read r.advance).Takes e (u :: rest)) (hu : u.kind = .punctuation .rightParen) :
    (readAtom r).Takes e rest := by
  have hkind : r.current.kind = .punctuation .leftParen := by rwa [Reading.current_of_tokens hr]
  rw [readAtom_leftParen hkind]
  refine (hread.andThen fun r' _ hr' => ?_).within _
  exact ((Reading.expect_takes hr' hu rfl).within _).andThen fun r'' _ hr'' => ⟨rfl, hr''⟩

theorem ofIdentifier_truth {t : Token} {b : Bool} (h : t.text = if b then "true" else "false") :
    ofIdentifier t = .bool b t.location := by
  rw [ofIdentifier, h]
  cases b <;> rfl

theorem continues_of_isExpr {rank : Rank} {ts : List Token} {e : Expr} (h : IsExpr rank ts e) :
    Continues rank ts e := by
  induction h with
  | ofProduct _ ih => exact fun r rest hdot _ hr => ih 0 r rest (Nat.zero_le _) hdot hr
  | @sum ls rs l r t op _ hop h20 _ ihl ihr =>
    intro reading rest hdot hfactor hreading
    rw [List.append_assoc] at hreading
    obtain ⟨s, hs, hresult⟩ := ihl reading (t :: rs ++ rest) (Kind.ne_dot_of_operator hop)
      (by simp [hop, h20]) hreading
    obtain ⟨s', hs', hright⟩ := ihr (op.precedence + 1) s.advance rest (by omega) hdot
      (hs.advance (Kind.isLayout_of_operator hop)).tokens
    have hstop : ∀ op', (leading rest).operator? = some op' →
        op'.precedence < op.precedence + 1 := by
      intro op' hop'
      rw [hfactor op' hop', h20]
      omega
    obtain ⟨r', hr', hclimb⟩ := climb_binary hs hop (Nat.zero_le _) hright hs' hstop
    exact ⟨r', hr', hresult.trans hclimb⟩
  | ofPrimary _ ih =>
    intro least r rest _ hdot hr
    obtain ⟨s, hs, hresult⟩ := ih r rest hr
    exact result_readPrimary ((readMembers_takes hs hdot).of_result hresult)
  | @product ls rs l r t op _ hop h40 _ ihl ihr =>
    intro least reading rest hleast hdot hreading
    rw [List.append_assoc] at hreading
    obtain ⟨s, hs, hresult⟩ := ihl least reading (t :: rs ++ rest) hleast
      (Kind.ne_dot_of_operator hop) hreading
    obtain ⟨s', hs', hmembers⟩ := ihr s.advance rest (hs.advance (Kind.isLayout_of_operator hop)).tokens
    obtain ⟨s'', hs'', hright⟩ :=
      result_readPrimary ((readMembers_takes hs' hdot).of_result hmembers)
    -- No operator binds more tightly than a factor's.
    have hstop : ∀ op', (leading rest).operator? = some op' →
        op'.precedence < op.precedence + 1 := by
      intro op' _
      have := op'.precedence_cases
      omega
    obtain ⟨r', hr', hclimb⟩ := climb_binary hs hop (h40 ▸ hleast) hright hs'' hstop
    exact ⟨r', hr', hresult.trans hclimb⟩
  | ofAtom _ ih =>
    intro r rest hr
    have htakes := ih r rest hr
    rw [readPrimary]
    obtain ⟨_, hresult⟩ := Step.result_andThen
      (f := fun atom after h => (readMembers atom after).within h) htakes.result
    exact ⟨_, htakes.after, hresult⟩
  | @member ts us e t n _ ht hname ih =>
    intro r rest hr
    rw [List.append_assoc] at hr
    obtain ⟨s, hs, hresult⟩ := ih r _ hr
    have hmember := Reading.expectName_takes hname (hs.advance (by rw [ht]; rfl))
    obtain ⟨_, hresult'⟩ := Step.result_andThen
      (f := fun member after h =>
        (readMembers (.dot e member s.current.location) after).within h) hmember.result
    refine ⟨_, hmember.after, hresult.trans ?_⟩
    rw [readMembers, dif_pos (by rw [hs.leading]; exact ht)]
    exact hresult'.trans (by rw [hs.current]; rfl)
  | @group ts e s t hopen _ hclose ih =>
    intro r rest hr
    rw [List.cons_append, List.append_assoc] at hr
    obtain ⟨r', hr', hresult⟩ := ih r.advance (t :: rest) (by simp [hclose])
      (by simp [hclose, Kind.operator?, Punctuation.operator?])
      (Reading.advance_before hr (by rw [hopen]; rfl)).tokens
    have hstop : (climb 0 e r').Takes e (t :: rest) :=
      climb_takes hr' (by simp [hclose, Kind.operator?, Punctuation.operator?])
    apply readAtom_group hr hopen _ hclose
    rw [read]
    exact hstop.of_result hresult
  | @identifier t ht htrue hfalse =>
    intro r rest hr
    have hcurrent : r.current = t := Reading.current_of_tokens hr
    rw [readAtom_identifier (by rwa [hcurrent]), hcurrent, ofIdentifier, if_neg htrue,
      if_neg hfalse]
    exact Reading.taking_takes hr (by rw [ht]; rfl)
  | @truth t b ht htext =>
    intro r rest hr
    have hcurrent : r.current = t := Reading.current_of_tokens hr
    rw [readAtom_identifier (by rwa [hcurrent]), hcurrent, ofIdentifier_truth htext]
    exact Reading.taking_takes hr (by rw [ht]; rfl)
  | @integer t ht =>
    intro r rest hr
    have hcurrent : r.current = t := Reading.current_of_tokens hr
    rw [readAtom_integer (by rwa [hcurrent]), hcurrent]
    exact Reading.taking_takes hr (by rw [ht]; rfl)
  | @nil t ht =>
    intro r rest hr
    have hcurrent : r.current = t := Reading.current_of_tokens hr
    rw [readAtom_nil (by rwa [hcurrent]), hcurrent]
    exact Reading.taking_takes hr (by rw [ht]; rfl)

/-- An expression is read up to a token that cannot go on with one. -/
theorem read_takes {ts rest : List Token} {e : Expr} {r : Reading} (he : IsExpr .sum ts e)
    (hdot : leading rest ≠ .punctuation .dot) (hop : (leading rest).operator? = none)
    (h : r.stream.tokens = ts ++ rest) : (read r).Takes e rest := by
  obtain ⟨r', hr', hresult⟩ := continues_of_isExpr he r rest hdot (by simp [hop]) h
  rw [read]
  exact (climb_takes hr' (by simp [hop])).of_result hresult

end Expr

end FirSyntax
