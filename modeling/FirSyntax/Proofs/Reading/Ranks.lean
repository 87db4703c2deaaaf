import FirSyntax.Proofs.Reading.Bond

/-!
# Reading rank by rank

The grammar of expressions has a rule for each rank: a sum of products, a product of primaries, a
primary made of an atom and its members. A reader that follows these rules one below the other, and
attaches from the left what it repeats, does the same as climbing by precedence on every stream: it
gives the same tree, takes the same tokens and reports the same fault.
-/
namespace FirSyntax

open Token

namespace Step

variable {α β : Type} {n : Nat} {s : Outcome α n}
  {f : (a : α) → (r : Reading) → r.remaining ≤ n → Outcome β n} {r : Reading}

/-- Behind a missing result nothing is done. -/
theorem result_andThen_of_none (h : s.result = (none, r)) : (s.andThen f).result = (none, r) := by
  obtain ⟨value, after, hle⟩ := s
  cases h
  rfl

theorem result_andThen_congr {m : Nat} {s' : Outcome α m}
    {f' : (a : α) → (r : Reading) → r.remaining ≤ m → Outcome β m} (h : s.result = s'.result)
    (hf : ∀ a r h h', (f a r h).result = (f' a r h').result) :
    (s.andThen f).result = (s'.andThen f').result := by
  obtain ⟨value, after, hle⟩ := s
  obtain ⟨value', after', hle'⟩ := s'
  cases h
  cases value with
  | none => rfl
  | some a => exact hf a after hle hle'

theorem ext_result {s s' : Outcome α n} (h : s.result = s'.result) : s = s' := by
  obtain ⟨value, after, hle⟩ := s
  obtain ⟨value', after', hle'⟩ := s'
  cases h
  rfl

theorem result_map {g : α → β} :
    (s.andThen fun a after h => .done (g a) after h).result = (s.value.map g, s.after) := by
  obtain ⟨value, after, hle⟩ := s
  cases value <;> rfl

end Step

namespace Expr

/-! ## The reader of ranks -/

namespace ByRank

/-- The operators of a sum. -/
def sumSign? : Punctuation → Option Operator
  | .plus => some .add
  | .minus => some .sub
  | _ => none

/-- The operators of a product. -/
def productSign? : Punctuation → Option Operator
  | .asterisk => some .mul
  | .slash => some .div
  | .percent => some .mod
  | _ => none

/-- The sign in front of a member. -/
def memberSign? : Punctuation → Option Unit
  | .dot => some ()
  | _ => none

/-- A sign, where it stands, and the item behind it. -/
structure Link (σ α : Type) where
  sign : σ
  location : Location
  item : α

/-- An operand becomes the right one of an operation. -/
def attach (left : Expr) (link : Link Operator Expr) : Expr :=
  .binary link.sign left link.item link.location

/-- A member of what was read so far. -/
def select (receiver : Expr) (link : Link Unit Name) : Expr :=
  .dot receiver link.item link.location

/-- `(sign item)*`, where items are read behind `r`. -/
def readLinks {σ α : Type} (sign? : Punctuation → Option σ) (r : Reading)
    (item : (s : Reading) → s.remaining < r.remaining → Outcome α s.remaining) :
    Outcome (List (Link σ α)) r.remaining :=
  match hkind : r.current.kind with
  | .punctuation p =>
    match sign? p with
    | some sign =>
      have hlt := Reading.remaining_advance_lt (r := r) (by simp [hkind])
      ((item r.advance hlt).andThen fun a after h =>
        ((readLinks sign? after fun s hs => item s (by omega)).within h).andThen fun links after h =>
        .done (⟨sign, r.current.location, a⟩ :: links) after h).within (Nat.le_of_lt hlt)
    | none => .here [] r
  | _ => .here [] r
termination_by r.remaining
decreasing_by omega

/-- `(sign item)*`, folded from the left onto what stands in front. -/
def readFolded {σ α β : Type} (sign? : Punctuation → Option σ) (f : β → Link σ α → β) (first : β)
    (r : Reading) (item : (s : Reading) → s.remaining < r.remaining → Outcome α s.remaining) :
    Outcome β r.remaining :=
  (readLinks sign? r item).andThen fun links after h => .done (links.foldl f first) after h

mutual

/-- `sum = product (('+' | '-') product)*` -/
def readSum (r : Reading) : Outcome Expr r.remaining :=
  (readProduct r).andThen fun first after h =>
  (readFolded sumSign? attach first after fun s _ => readProduct s).within h
termination_by 4 * r.remaining + 3
decreasing_by all_goals omega

/-- `product = primary (('*' | '/' | '%') primary)*` -/
def readProduct (r : Reading) : Outcome Expr r.remaining :=
  (readPrimary r).andThen fun first after h =>
  (readFolded productSign? attach first after fun s _ => readPrimary s).within h
termination_by 4 * r.remaining + 2
decreasing_by all_goals omega

/-- `primary = atom ('.' identifier)*` -/
def readPrimary (r : Reading) : Outcome Expr r.remaining :=
  (readAtom r).andThen fun atom after h =>
  (readFolded memberSign? select atom after fun s _ => s.expectName).within h
termination_by 4 * r.remaining + 1
decreasing_by all_goals omega

/-- `atom = '(' sum ')' | identifier | integer | 'nil'` -/
def readAtom (r : Reading) : Outcome Expr r.remaining :=
  match hkind : r.current.kind with
  | .punctuation .leftParen =>
    have hlt := Reading.remaining_advance_lt (r := r) (by simp [hkind])
    ((readSum r.advance).andThen fun inner after h =>
      ((after.expect (.punctuation .rightParen)).within h).andThen fun _ after h =>
      .done inner after h).within (Nat.le_of_lt hlt)
  | .identifier => .taking (ofIdentifier r.current) r
  | .integer => .taking (.int (Decimal.value r.current.text) r.current.location) r
  | .keyword .nil => .taking (.nil r.current.location) r
  | _ => .refused .expression r
termination_by 4 * r.remaining
decreasing_by all_goals omega

end

/-! ## What is repeated -/

section

variable {σ α β : Type} {sign? : Punctuation → Option σ} {f : β → Link σ α → β} {first : β}
  {item : (s : Reading) → Outcome α s.remaining} {r s : Reading} {p : Punctuation} {sign : σ} {a : α}

/-- Nothing is repeated in front of other tokens than the signs. -/
theorem readFolded_of_none (h : ∀ p, r.current.kind = .punctuation p → sign? p = none) :
    (readFolded sign? f first r fun s _ => item s).result = (some first, r) := by
  rw [readFolded, readLinks]
  split
  · next p hkind =>
    split
    · next hsign => cases (h p hkind).symm.trans hsign
    · rfl
  · rfl

theorem readLinks_of_sign (hkind : r.current.kind = .punctuation p) (hsign : sign? p = some sign) :
    readLinks sign? r (fun s _ => item s) =
      ((item r.advance).andThen fun a after h =>
        ((readLinks sign? after fun s _ => item s).within h).andThen fun links after h =>
        .done (⟨sign, r.current.location, a⟩ :: links) after h).within
          (Reading.remaining_advance_le r) := by
  rw [readLinks]
  split
  · next p' hkind' =>
    cases hkind.symm.trans hkind'
    split
    · next sign' hsign' =>
      cases hsign.symm.trans hsign'
      rfl
    · next hnone => cases hsign.symm.trans hnone
  · next hnot => exact absurd hkind (hnot p)

/-- A sign and its item are folded in, and the repetition goes on behind them. -/
theorem readFolded_of_item (hkind : r.current.kind = .punctuation p) (hsign : sign? p = some sign)
    (hitem : (item r.advance).result = (some a, s)) :
    (readFolded sign? f first r fun s _ => item s).result =
      (readFolded sign? f (f first ⟨sign, r.current.location, a⟩) s fun s _ => item s).result := by
  have hlinks : (readLinks sign? r fun s _ => item s).result =
      ((readLinks sign? s fun s _ => item s).value.map (⟨sign, r.current.location, a⟩ :: ·),
        (readLinks sign? s fun s _ => item s).after) := by
    rw [readLinks_of_sign hkind hsign]
    obtain ⟨hle, hrest⟩ := Step.result_andThen (f := fun a after h =>
      ((readLinks sign? after fun s _ => item s).within h).andThen fun links after h =>
        .done (⟨sign, r.current.location, a⟩ :: links) after h) hitem
    exact hrest.trans Step.result_map
  obtain ⟨hvalue, hafter⟩ := Prod.mk.inj hlinks
  rw [readFolded, readFolded, Step.result_map, Step.result_map, hvalue, hafter, Option.map_map]
  rfl

/-- Where an item is missing nothing is given. -/
theorem readFolded_of_failure (hkind : r.current.kind = .punctuation p) (hsign : sign? p = some sign)
    (hitem : (item r.advance).result = (none, s)) :
    (readFolded sign? f first r fun s _ => item s).result = (none, s) := by
  rw [readFolded, readLinks_of_sign hkind hsign]
  exact Step.result_andThen_of_none (Step.result_andThen_of_none hitem)

end

/-- The operators of products and those of sums are all operators. -/
theorem sign_cases (p : Punctuation) :
    (sumSign? p = p.operator? ∧ productSign? p = none ∧
        ∀ op, p.operator? = some op → op.precedence = 20) ∨
      (productSign? p = p.operator? ∧ sumSign? p = none ∧
        ∀ op, p.operator? = some op → op.precedence = 40) := by
  cases p <;> simp [sumSign?, productSign?, Punctuation.operator?, Operator.precedence]

/-- The factors behind the first one of a product. -/
abbrev readFactors (first : Expr) (r : Reading) : Outcome Expr r.remaining :=
  readFolded productSign? attach first r fun s _ => readPrimary s

/-- The summands behind the first one of a sum. -/
abbrev readSummands (first : Expr) (r : Reading) : Outcome Expr r.remaining :=
  readFolded sumSign? attach first r fun s _ => readProduct s

/-- No factor follows unless an operator of products does. -/
theorem readFactors_of_stop {first : Expr} {r : Reading}
    (h : ∀ op, r.current.kind.operator? = some op → op.precedence < 21) :
    (readFactors first r).result = (some first, r) := by
  refine readFolded_of_none fun p hkind => ?_
  rcases sign_cases p with ⟨-, hnone, -⟩ | ⟨hsign, -, h40⟩
  · exact hnone
  · rw [hsign]
    cases hop : p.operator? with
    | none => rfl
    | some op =>
      have hlt := h op (by rw [hkind]; exact hop)
      rw [h40 op hop] at hlt
      exact absurd hlt (by decide)

/-- Where no factor follows, summands do. -/
theorem result_summands_of_stop {first : Expr} {r : Reading}
    (h : ∀ op, r.current.kind.operator? = some op → op.precedence < 21) :
    ((readFactors first r).andThen fun product after h =>
      (readSummands product after).within h).result = (readSummands first r).result := by
  obtain ⟨_, hrest⟩ := Step.result_andThen
    (f := fun product after h => (readSummands product after).within h) (readFactors_of_stop h)
  exact hrest

/-- No summand follows unless an operator does. -/
theorem readSummands_of_none {first : Expr} {r : Reading} (h : r.current.kind.operator? = none) :
    (readSummands first r).result = (some first, r) := by
  refine readFolded_of_none fun p hkind => ?_
  have hp : p.operator? = none := by
    rw [hkind] at h
    exact h
  rcases sign_cases p with ⟨hsign, -, -⟩ | ⟨-, hnone, -⟩
  · exact hsign.trans hp
  · exact hnone

theorem readMembers_eq (receiver : Expr) (r : Reading) :
    (readMembers receiver r).result =
      (readFolded memberSign? select receiver r fun s _ => s.expectName).result := by
  rw [readMembers]
  split
  · next hdot =>
    have hlt := Reading.remaining_advance_lt (r := r) (by simp [hdot])
    have hsign : memberSign? .dot = some () := rfl
    cases h : r.advance.expectName.result with
    | mk value s =>
      cases value with
      | none =>
        exact (Step.result_andThen_of_none h).trans (readFolded_of_failure hdot hsign h).symm
      | some member =>
        have hle := Step.remaining_of_result h
        obtain ⟨_, hrest⟩ := Step.result_andThen (f := fun member after h =>
          (readMembers (.dot receiver member r.current.location) after).within h) h
        exact hrest.trans ((readMembers_eq _ s).trans (readFolded_of_item hdot hsign h).symm)
  · next hdot =>
    refine (readFolded_of_none fun p hkind => ?_).symm
    cases p with
    | dot => exact absurd hkind hdot
    | _ => rfl
termination_by r.remaining
decreasing_by omega

end ByRank

end Expr

end FirSyntax
