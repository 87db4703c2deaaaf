import FirSyntax.Proofs.Reading.ClauseCompleteness
import FirSyntax.Proofs.Reading.Soundness

/-!
# Completeness of the rules of a line

Tokens that a rule of a line derives are read as the header or statement that it derives them to,
together with the end of the line.
-/
namespace FirSyntax

open Token Grammar

variable {ts rest : List Token} {r : Reading}

namespace Reading

/-- A line that ends carries nothing any more. -/
theorem leading_of_end (hend : IsEnd ts rest) :
    leading ts = .newline ∨ leading ts = .unindent ∨ leading ts = .eof := by
  cases hend with
  | newline ht => exact .inl ht
  | closing hall =>
    cases ts with
    | nil => exact .inr (.inr rfl)
    | cons t ts => exact .inr (.inl (hall t (by simp)))

/-- The kinds that follow the last rule of a line. -/
theorem leading_of_lineEnd {comment : Option String} (hline : IsLineEnd ts comment rest) :
    leading ts = .comment ∨ leading ts = .newline ∨ leading ts = .unindent ∨ leading ts = .eof := by
  obtain ⟨hremark, hend⟩ := hline
  cases hremark with
  | given ht => exact .inl ht
  | absent => exact .inr (leading_of_end hend)

theorem endsClause_of_lineEnd {comment : Option String} (hline : IsLineEnd ts comment rest) :
    (leading ts).endsClause = true ∧ leading ts ≠ .punctuation .semicolon ∧
      leading ts ≠ .punctuation .comma := by
  rcases leading_of_lineEnd hline with h | h | h | h <;> rw [h] <;> simp [Kind.endsClause]

theorem expectLineEnd_gives (hend : IsEnd ts rest) (h : r.Before ts) :
    r.expectLineEnd.Gives () rest := by
  unfold expectLineEnd
  cases hend with
  | newline ht =>
    have hkind : r.current.kind = .newline := h.leading.trans ht
    rw [if_pos (by simp [atLineEnd, hkind]), accept_next_of_eq hkind]
    refine ⟨rfl, ?_⟩
    rw [show (Step.done () r.advance _).after = r.advance from rfl,
      tokens_advance (by simp [hkind]), h.tokens, List.tail_cons]
  | closing hall =>
    have hnewline : r.current.kind ≠ .newline := by
      rw [h.leading]
      cases ts with
      | nil => simp
      | cons t ts => simp [hall t (by simp)]
    -- Levels that are closed directly after a token of the line end the line as well.
    have hline : r.atLineEnd = true := by
      have hprevious := h.previous
      have hleading := leading_of_end (.closing hall)
      rw [← h.leading] at hleading
      rcases hleading with hk | hk | hk <;> rw [atLineEnd, hk]
      cases hp : r.previous <;> simp_all [Kind.isLayout]
    rw [if_pos hline, accept_next_of_ne hnewline]
    exact ⟨rfl, h.tokens⟩

theorem finishLine_gives {comment : Option String} (hline : IsLineEnd ts comment rest)
    (h : r.Before ts) : r.finishLine.Gives comment rest := by
  unfold finishLine
  obtain ⟨hremark, hend⟩ := hline
  cases hremark with
  | given ht =>
    have hkind : r.current.kind = .comment := h.leading.trans ht
    rw [accept_next_of_eq hkind, if_pos hkind, h.current]
    have hgives := expectLineEnd_gives hend (h.advance (by rw [ht]; rfl))
    exact (hgives.within _).map
  | absent =>
    have hkind : r.current.kind ≠ .comment := by
      rw [h.leading, List.nil_append]
      rcases leading_of_end hend with hk | hk | hk <;> simp [hk]
    rw [accept_next_of_ne hkind, if_neg hkind]
    exact ((expectLineEnd_gives hend h).within _).map

end Reading

namespace Header

theorem readParameters_takes {parameters : List Clause} (hparameters : IsParameters ts parameters)
    (hparen : leading rest = .punctuation .rightParen) (h : r.Before (ts ++ rest)) :
    (readParameters r).Takes parameters rest := by
  unfold readParameters
  cases hparameters with
  | none =>
    rw [if_pos (h.leading.trans hparen)]
    exact Reading.here_takes h
  | some hclauses =>
    have hkind : r.current.kind = .identifier := by
      rw [h.leading]
      cases hclauses with
      | one hclause =>
        obtain ⟨hnames⟩ := hclause
        rw [List.append_assoc]
        exact leading_of_names hnames _
      | more hclause =>
        obtain ⟨hnames⟩ := hclause
        rw [List.append_assoc, List.append_assoc]
        exact leading_of_names hnames _
    rw [if_neg (by simp [hkind])]
    exact Clause.readAll_takes hclauses (by rw [hparen]; rfl) (by simp [hparen]) h

theorem readResult_takes {result : TypeRef} {ls : List Token} {comment : Option String}
    (hresult : IsResult ts result) (hline : IsLineEnd ls comment rest)
    (h : r.Before (ts ++ ls)) : (readResult r).Takes result ls := by
  have hleading := Reading.leading_of_lineEnd hline
  unfold readResult
  cases hresult with
  | absent =>
    rw [List.nil_append] at h
    rw [← h.leading] at hleading
    rcases hleading with hk | hk | hk | hk <;> rw [hk] <;> exact Reading.here_takes h
  | given htype =>
    have htakes : (TypeRef.read r).Takes result ls :=
      TypeRef.read_takes htype (by rcases hleading with hk | hk | hk | hk <;> simp [hk]) h
    have hkind := h.leading
    cases htype with
    | plain hpath =>
      rw [leading_of_names hpath] at hkind
      rw [hkind]
      exact htakes
    | optional hopt =>
      rw [show r.current.kind = .keyword .optional from hkind.trans hopt]
      exact htakes

theorem read_gives {p : Token} {header : Header} {ls : List Token}
    (hheading : IsHeading (p :: ts) header) (hline : IsLineEnd ls header.comment rest)
    (h : r.Before (ts ++ ls)) : (read p.location r).Gives header rest := by
  cases hheading with
  | @intro p o c d ns ps rs name parameters result comment _ hname ho hparameters hc hd hresult =>
    have h₀ : r.Before (ns ++ (o :: (ps ++ (c :: d :: (rs ++ ls))))) := by simpa using h
    unfold read
    refine (Reading.expectName_takes hname h₀).andThenGives fun r₁ _ h₁ => ?_
    refine ((Reading.expect_takes h₁ ho rfl).within _).andThenGives fun r₂ _ h₂ => ?_
    have hparen : leading (c :: d :: (rs ++ ls)) = .punctuation .rightParen := hc
    refine ((readParameters_takes hparameters hparen h₂).within _).andThenGives fun r₃ _ h₃ => ?_
    refine ((Reading.expect_takes h₃ hc rfl).within _).andThenGives fun r₄ _ h₄ => ?_
    refine ((Reading.expect_takes h₄ hd rfl).within _).andThenGives fun r₅ _ h₅ => ?_
    refine ((readResult_takes hresult hline h₅).within _).andThenGives fun r₆ _ h₆ => ?_
    exact ((Reading.finishLine_gives hline h₆).within _).map

end Header

namespace Statement

/-- Whether a value follows can be told from the first token of an expression. -/
theorem opensExpression_of_isExpr {rank : Grammar.Rank} {e : Expr} (h : IsExpr rank ts e)
    (rest : List Token) : (leading (ts ++ rest)).opensExpression = true := by
  induction h generalizing rest with
  | ofProduct _ ih | ofPrimary _ ih | ofAtom _ ih => exact ih rest
  | sum _ _ _ _ ih | product _ _ _ _ ih =>
    rw [List.append_assoc]
    exact ih _
  | member _ _ _ ih =>
    rw [List.append_assoc]
    exact ih _
  | group ht | identifier ht | truth ht | integer ht | nil ht => simp [ht, Kind.opensExpression]

theorem readReturned_takes {value : Option Expr} {ls : List Token} {comment : Option String}
    (hvalue : IsReturned ts value) (hline : IsLineEnd ls comment rest)
    (h : r.Before (ts ++ ls)) : (readReturned r).Takes value ls := by
  unfold readReturned
  cases hvalue with
  | absent =>
    rw [if_neg ?_]
    · exact Reading.here_takes h
    · rw [h.leading, List.nil_append]
      rcases Reading.leading_of_lineEnd hline with hk | hk | hk | hk <;>
        simp [hk, Kind.opensExpression]
  | given he =>
    have hends := (Reading.endsClause_of_lineEnd hline).1
    rw [if_pos (by rw [h.leading]; exact opensExpression_of_isExpr he _)]
    exact (Expr.read_takes he (Kind.ne_of_endsClause hends rfl) (Kind.operator_of_endsClause hends)
      h.tokens).andThen fun r' _ hr' => ⟨rfl, hr'⟩

theorem finish_gives {n : Nat} {make : Option String → Statement} {comment : Option String}
    (hline : IsLineEnd ts comment rest) (h : r.Before ts) (hle : r.remaining ≤ n) :
    (finish make r hle).Gives (make comment) rest :=
  ((Reading.finishLine_gives hline h).within hle).map

/-- A statement of one line, from its second token on. -/
theorem read_gives {place : Place} {first : Token} {fs ls : List Token} {comment : Option String}
    {s : Statement} (hs : IsLine false place (first :: fs) comment s)
    (hline : IsLineEnd ls comment rest) (h : r.Before (fs ++ ls)) :
    ∃ lead : Lead, lead ≠ .procedure ∧ lead.Opens place first ∧
      (read lead first r).Gives s rest := by
  obtain ⟨hends, hsemicolon, hcomma⟩ := Reading.endsClause_of_lineEnd hline
  cases hs with
  | consts hkind hclauses _ =>
    refine ⟨.consts, by simp, hkind, ?_⟩
    rw [read.eq_def]
    exact (Clause.readAll_takes hclauses hends hsemicolon h).andThenGives
      fun r' hle h' => finish_gives hline h' hle
  | vars hkind hclauses =>
    refine ⟨.vars, by simp, hkind, ?_⟩
    rw [read.eq_def]
    exact (Clause.readAll_takes hclauses hends hsemicolon h).andThenGives
      fun r' hle h' => finish_gives hline h' hle
  | returns hkind hvalue =>
    refine ⟨.returns, by simp, ⟨rfl, hkind⟩, ?_⟩
    rw [read.eq_def]
    exact (readReturned_takes hvalue hline h).andThenGives
      fun r' hle h' => finish_gives hline h' hle
  | comment hkind =>
    refine ⟨.comment, by simp, hkind, ?_⟩
    rw [read.eq_def]
    obtain ⟨hremark, hend⟩ := hline
    cases hremark with
    | absent => exact (Reading.expectLineEnd_gives hend h).map
  | imports hkind hpaths =>
    refine ⟨.imports, by simp, ⟨rfl, hkind⟩, ?_⟩
    rw [read.eq_def]
    have htakes := Reading.separated_takes (P := fun k => k ≠ .punctuation .dot) (by simp)
      (fun hpath hdot h => DottedName.read_takes hpath hdot h) hpaths r
      (Kind.ne_of_endsClause hends rfl) hcomma h
    exact htakes.andThenGives fun r' hle h' => finish_gives hline h' hle
  | moduleName hkind htext hpath =>
    refine ⟨.moduleName, by simp, ⟨rfl, hkind, htext⟩, ?_⟩
    rw [read.eq_def]
    exact (DottedName.read_takes hpath (Kind.ne_of_endsClause hends rfl) h).andThenGives
      fun r' hle h' => finish_gives hline h' hle

end Statement

end FirSyntax
