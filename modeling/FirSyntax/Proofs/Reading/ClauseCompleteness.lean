import FirSyntax.Proofs.Reading.ExprCompleteness

/-!
# Completeness of the rules of a clause

Tokens that derive a path, a type or a clause are read as what they derive, provided that what
follows ends a clause. A comma between the names of constants is reported, but the names are taken
all the same.
-/
namespace FirSyntax

open Token Grammar

/-- The kinds that end a clause and whatever it consists of. -/
def Token.Kind.endsClause : Kind → Bool
  | .punctuation .semicolon | .punctuation .rightParen | .comment | .newline | .unindent | .eof =>
    true
  | _ => false

namespace Token.Kind

variable {k : Kind}

theorem operator_of_endsClause (h : k.endsClause = true) : k.operator? = none := by
  cases k with
  | punctuation sign => cases sign <;> first | rfl | cases h
  | _ => rfl

theorem ne_of_endsClause {k' : Kind} (h : k.endsClause = true) (h' : k'.endsClause = false) :
    k ≠ k' := by
  rintro rfl
  cases h.symm.trans h'

end Token.Kind

variable {ts rest : List Token} {r : Reading}

theorem DottedName.read_takes {path : DottedName} (hpath : IsPath ts path)
    (hdot : leading rest ≠ .punctuation .dot) (h : r.Before (ts ++ rest)) :
    (DottedName.read r).Takes path rest := by
  have hnames := Reading.separated_takes (P := fun _ => True) trivial
    (fun hname _ h => Reading.expectName_takes hname h) hpath r trivial hdot h
  exact hnames.andThen fun r' _ hr' => ⟨rfl, hr'⟩

/-- Names begin with an identifier, whatever separates them. -/
theorem Grammar.leading_of_names {sign : Punctuation} {names : List Name}
    (h : Separated sign IsName ts names) (rest : List Token) :
    leading (ts ++ rest) = .identifier := by
  cases h with
  | one hname =>
    obtain ⟨ht⟩ := hname
    exact ht
  | more hname =>
    obtain ⟨ht⟩ := hname
    exact ht

theorem TypeRef.read_takes {type : TypeRef} (htype : IsType ts type)
    (hdot : leading rest ≠ .punctuation .dot) (h : r.Before (ts ++ rest)) :
    (TypeRef.read r).Takes type rest := by
  unfold TypeRef.read
  cases htype with
  | @plain t ts path hpath =>
    have hkind : t.kind = .identifier := leading_of_names hpath []
    rw [Reading.accept_next_of_ne (by simp [h.leading, hkind])]
    refine (DottedName.read_takes hpath hdot h).andThen fun r' _ hr' => ⟨?_, hr'⟩
    rw [h.current]
    rfl
  | @optional t ts path hopt hpath =>
    rw [Reading.accept_next_of_eq (h.leading.trans hopt)]
    refine ((DottedName.read_takes hpath hdot (h.advance (by rw [hopt]; rfl))).within _).andThen
      fun r' _ hr' => ⟨?_, hr'⟩
    rw [h.current]
    rfl

namespace Clause

theorem skipComma_before {constant : Bool} {t : Token} (ht : t.kind = .punctuation .comma)
    (h : r.Before (t :: rest)) : (skipComma constant r).Before rest := by
  have hnext := h.advance (by rw [ht]; rfl)
  cases constant with
  | false => exact hnext
  | true => exact hnext.report _ _

theorem readNames_takes {constant : Bool} {names : List Name}
    (hnames : Separated .comma IsName ts names) (hcomma : leading rest ≠ .punctuation .comma)
    (r : Reading) (h : r.Before (ts ++ rest)) : (readNames constant r).Takes names rest := by
  induction hnames generalizing r with
  | one hname =>
    rw [readNames]
    refine (Reading.expectName_takes hname h).andThen fun r' _ hr' => ?_
    rw [dif_neg (by rwa [hr'.leading])]
    exact ⟨rfl, hr'⟩
  | more hname ht hrest ih =>
    rw [readNames]
    rw [List.append_assoc] at h
    refine (Reading.expectName_takes hname h).andThen fun r' _ hr' => ?_
    rw [dif_pos (hr'.leading.trans ht)]
    exact ((ih _ (skipComma_before ht hr')).within _).andThen fun r'' _ hr'' => ⟨rfl, hr''⟩

theorem readType_takes {type : TypeRef} (htype : IsTyping ts type)
    (hcolon : leading rest ≠ .punctuation .colon) (hdot : leading rest ≠ .punctuation .dot)
    (h : r.Before (ts ++ rest)) : (readType r).Takes type rest := by
  unfold readType
  cases htype with
  | absent =>
    rw [Reading.accept_next_of_ne (by rwa [h.leading])]
    exact ⟨rfl, h⟩
  | given ht htype =>
    rw [Reading.accept_next_of_eq (h.leading.trans ht)]
    exact (TypeRef.read_takes htype hdot (h.advance (by rw [ht]; rfl))).within
      (Reading.remaining_advance_le r)

theorem readValue_takes {value : Option Expr} (hvalue : IsInitial ts value)
    (hends : (leading rest).endsClause = true) (h : r.Before (ts ++ rest)) :
    (readValue r).Takes value rest := by
  unfold readValue
  cases hvalue with
  | absent =>
    rw [Reading.accept_next_of_ne (by rw [h.leading]; exact Kind.ne_of_endsClause hends rfl)]
    exact ⟨rfl, h⟩
  | given ht he =>
    rw [Reading.accept_next_of_eq (h.leading.trans ht)]
    exact ((Expr.read_takes he (Kind.ne_of_endsClause hends rfl) (Kind.operator_of_endsClause hends)
      (h.advance (by rw [ht]; rfl)).tokens).within _).andThen fun r' _ hr' => ⟨rfl, hr'⟩

/-- The token after the type of a clause. -/
theorem leading_of_initial {vs : List Token} {value : Option Expr} (hvalue : IsInitial vs value)
    (hends : (leading rest).endsClause = true) :
    leading (vs ++ rest) = .punctuation .equal ∨ (leading (vs ++ rest)).endsClause = true := by
  cases hvalue with
  | absent => exact .inr hends
  | given ht => exact .inl ht

theorem read_takes {constant : Bool} {clause : Clause} (hclause : IsClause ts clause)
    (hends : (leading rest).endsClause = true) (h : r.Before (ts ++ rest)) :
    (read constant r).Takes clause rest := by
  obtain ⟨hnames, htype, hvalue⟩ := hclause
  rename_i ns ts vs names type value
  rw [List.append_assoc, List.append_assoc] at h
  have hinitial {k : Kind} (hk : k.endsClause = false) (hne : k ≠ .punctuation .equal) :
      leading (vs ++ rest) ≠ k := by
    rcases leading_of_initial hvalue hends with heq | hends'
    · rw [heq]
      exact hne.symm
    · exact Kind.ne_of_endsClause hends' hk
  have hcomma : leading (ts ++ (vs ++ rest)) ≠ .punctuation .comma := by
    cases htype with
    | absent => exact hinitial rfl (by simp)
    | given ht => simp [ht]
  unfold read
  refine (readNames_takes hnames hcomma r h).andThen fun r₁ _ h₁ => ?_
  refine ((readType_takes htype (hinitial rfl (by simp)) (hinitial rfl (by simp)) h₁).within _).andThen
    fun r₂ _ h₂ => ?_
  refine ((readValue_takes hvalue hends h₂).within _).andThen fun r₃ _ h₃ => ?_
  simp only
  split
  · exact ⟨rfl, h₃.report _ _⟩
  · exact ⟨rfl, h₃⟩

theorem readAll_takes {constant : Bool} {clauses : List Clause}
    (hclauses : Separated .semicolon IsClause ts clauses)
    (hends : (leading rest).endsClause = true) (hne : leading rest ≠ .punctuation .semicolon)
    (h : r.Before (ts ++ rest)) : (readAll constant r).Takes clauses rest :=
  Reading.separated_takes (P := fun k => k.endsClause = true) rfl read_takes hclauses r hends hne h

end Clause

end FirSyntax
