import FirSyntax.Diagnostic
import FirSyntax.Tree.Decimal
import FirSyntax.Tree.Statement

/-!
# The grammar of lines

Rules that relate tokens to the tree they spell, written without the reader: expressions by rank,
paths, types, clauses, the end of a line and the header of a procedure. Every location of a tree is
that of one of its tokens. Only the end of a line depends on what follows, so its rules also name
the tokens that are left.
-/
namespace FirSyntax

theorem Operator.precedence_cases (op : Operator) : op.precedence = 20 ∨ op.precedence = 40 := by
  cases op <;> simp [Operator.precedence]

namespace Grammar

open Token

variable {α : Type}

/-- One item or more, with a sign between them. -/
inductive Separated (sign : Punctuation) (Item : List Token → α → Prop) :
    List Token → List α → Prop where
  | one {ts a} : Item ts a → Separated sign Item ts [a]
  | more {ts t us a as} : Item ts a → t.kind = .punctuation sign → Separated sign Item us as →
      Separated sign Item (ts ++ t :: us) (a :: as)

/-- An identifier, which may not be a reserved word. -/
inductive IsName : List Token → Name → Prop where
  | intro {t : Token} : t.kind = .identifier → IsName [t] ⟨t.text, t.location⟩

/-- The ranks of expressions: sums of products of primaries, and the atoms that members are taken
from. -/
inductive Rank where
  | sum
  | product
  | primary
  | atom
deriving DecidableEq, Repr

/-- Operators of one rank associate to the left; those of products bind more tightly. -/
inductive IsExpr : Rank → List Token → Expr → Prop where
  | ofProduct {ts e} : IsExpr .product ts e → IsExpr .sum ts e
  | sum {ls rs l r t op} : IsExpr .sum ls l → t.kind.operator? = some op → op.precedence = 20 →
      IsExpr .product rs r → IsExpr .sum (ls ++ t :: rs) (.binary op l r t.location)
  | ofPrimary {ts e} : IsExpr .primary ts e → IsExpr .product ts e
  | product {ls rs l r t op} : IsExpr .product ls l → t.kind.operator? = some op →
      op.precedence = 40 → IsExpr .primary rs r →
      IsExpr .product (ls ++ t :: rs) (.binary op l r t.location)
  | ofAtom {ts e} : IsExpr .atom ts e → IsExpr .primary ts e
  | member {ts us e t n} : IsExpr .primary ts e → t.kind = .punctuation .dot → IsName us n →
      IsExpr .primary (ts ++ t :: us) (.dot e n t.location)
  | group {ts e s t} : s.kind = .punctuation .leftParen → IsExpr .sum ts e →
      t.kind = .punctuation .rightParen → IsExpr .atom (s :: (ts ++ [t])) e
  | identifier {t : Token} : t.kind = .identifier → t.text ≠ "true" → t.text ≠ "false" →
      IsExpr .atom [t] (.name ⟨t.text, t.location⟩)
  | truth {t : Token} {b : Bool} : t.kind = .identifier → t.text = (if b then "true" else "false") →
      IsExpr .atom [t] (.bool b t.location)
  | integer {t : Token} : t.kind = .integer →
      IsExpr .atom [t] (.int (Decimal.value t.text) t.location)
  | nil {t : Token} : t.kind = .keyword .nil → IsExpr .atom [t] (.nil t.location)

/-- Names with dots between them. -/
def IsPath (ts : List Token) (path : DottedName) : Prop := Separated .dot IsName ts path.names

/-- A path, which may be marked as optional. -/
inductive IsType : List Token → TypeRef → Prop where
  | plain {t ts path} : IsPath (t :: ts) path →
      IsType (t :: ts) ⟨false, path.names.map (·.text), t.location⟩
  | optional {t ts path} : t.kind = .keyword .optional → IsPath ts path →
      IsType (t :: ts) ⟨true, path.names.map (·.text), t.location⟩

/-- The type of a clause after a colon, if it is given. -/
inductive IsTyping : List Token → TypeRef → Prop where
  | absent : IsTyping [] .unspecified
  | given {t ts type} : t.kind = .punctuation .colon → IsType ts type → IsTyping (t :: ts) type

/-- The initial value of a clause after an equals sign, if it is given. -/
inductive IsInitial : List Token → Option Expr → Prop where
  | absent : IsInitial [] none
  | given {t ts e} : t.kind = .punctuation .equal → IsExpr .sum ts e → IsInitial (t :: ts) (some e)

inductive IsClause : List Token → Clause → Prop where
  | intro {ns ts vs names type value} : Separated .comma IsName ns names → IsTyping ts type →
      IsInitial vs value → IsClause (ns ++ (ts ++ vs)) ⟨names, type, value⟩

/-- The clauses between the parentheses of a header. -/
inductive IsParameters : List Token → List Clause → Prop where
  | none : IsParameters [] []
  | some {ts clauses} : Separated .semicolon IsClause ts clauses → IsParameters ts clauses

/-- The type after the colon of a header, if it is given. -/
inductive IsResult : List Token → TypeRef → Prop where
  | absent : IsResult [] .unspecified
  | given {ts type} : IsType ts type → IsResult ts type

/-- The value that is returned, if it is given. -/
inductive IsReturned : List Token → Option Expr → Prop where
  | absent : IsReturned [] none
  | given {ts e} : IsExpr .sum ts e → IsReturned ts (some e)

/-- A comment at the end of a line, if there is one. -/
inductive IsRemark : List Token → Option String → Prop where
  | absent : IsRemark [] none
  | given {t : Token} : t.kind = .comment → IsRemark [t] (some t.text)

/-- The end of a line is its terminator, or nothing when the file ends with the line: then only
levels are closed. The second list is what follows. -/
inductive IsEnd : List Token → List Token → Prop where
  | newline {t ts} : t.kind = .newline → IsEnd (t :: ts) ts
  | closing {ts} : (∀ t ∈ ts, t.kind = .unindent) → IsEnd ts ts

/-- The end of a line that may carry a comment. -/
inductive IsLineEnd : List Token → Option String → List Token → Prop where
  | intro {cs ts comment rest} : IsRemark cs comment → IsEnd ts rest →
      IsLineEnd (cs ++ ts) comment rest

/-- The first line of a procedure, up to the comment at its end. -/
inductive IsHeading : List Token → Header → Prop where
  | intro {p o c d : Token} {ns ps rs name parameters result comment} :
      p.kind = .keyword .proc → IsName ns name → o.kind = .punctuation .leftParen →
      IsParameters ps parameters → c.kind = .punctuation .rightParen →
      d.kind = .punctuation .colon → IsResult rs result →
      IsHeading (p :: (ns ++ o :: (ps ++ c :: d :: rs)))
        ⟨name, parameters, result, comment, p.location⟩

/-! ## Nothing is spelled by no tokens -/

theorem Separated.ne_nil {α : Type} {sign : Punctuation} {Item : List Token → α → Prop}
    {ts : List Token} {as : List α} (h : Separated sign Item ts as) : as ≠ [] := by
  cases h <;> simp

theorem Separated.tokens_ne_nil {α : Type} {sign : Punctuation}
    {Item : List Token → α → Prop} {ts : List Token} {as : List α}
    (hitem : ∀ ts a, Item ts a → ts ≠ []) (h : Separated sign Item ts as) : ts ≠ [] := by
  cases h with
  | one h => exact hitem _ _ h
  | more h => simp

theorem IsName.tokens_ne_nil {ts : List Token} {name : Name} (h : IsName ts name) :
    ts ≠ [] := by
  cases h
  simp

theorem IsPath.tokens_ne_nil {ts : List Token} {path : DottedName} (h : IsPath ts path) :
    ts ≠ [] :=
  Separated.tokens_ne_nil (fun _ _ => IsName.tokens_ne_nil) h

end Grammar

end FirSyntax
