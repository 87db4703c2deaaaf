import FirSyntax.Proofs.Grammar.Line

/-!
# The grammar of files

Statements, the blocks beneath headers, and files. A block is an indentation, one statement or more
and an un-indentation. The strict grammar is the documented one; the lax grammar also has the lines
that are reported and kept all the same: constants without one name and a value each, and headers
without a block.
-/
namespace FirSyntax

/-- Whether a clause declares one name and gives it a value, as a constant must. -/
def Clause.IsConstant (clause : Clause) : Prop :=
  (∃ name, clause.names = [name]) ∧ clause.value.isSome

/-- Whether all constants of a statement have one name and a value for each clause, and no
procedure in it is without a body. -/
inductive Statement.Complete : Statement → Prop where
  | empty {comment l} : Complete (.empty comment l)
  | returns {value comment l} : Complete (.returns value comment l)
  | consts {clauses comment l} : (∀ clause ∈ clauses, clause.IsConstant) →
      Complete (.consts clauses comment l)
  | vars {clauses comment l} : Complete (.vars clauses comment l)
  | imports {paths comment l} : Complete (.imports paths comment l)
  | moduleName {path comment l} : Complete (.moduleName path comment l)
  | procedure {header body} : body ≠ [] → (∀ s ∈ body, s.Complete) →
      Complete (.procedure header body)

namespace Grammar

/-- Where a statement stands: at the top level of a file or in a block. -/
inductive Place where
  | file
  | block
deriving DecidableEq, Repr

/-- A statement of one line, up to the comment at its end. Values are returned in blocks only;
imports and the name of the module stand at the top level only. -/
inductive IsLine (strict : Bool) : Place → List Token → Option String → Statement → Prop where
  | consts {place t cs clauses comment} : t.kind = .keyword .const →
      Separated .semicolon IsClause cs clauses →
      (strict = true → ∀ clause ∈ clauses, clause.IsConstant) →
      IsLine strict place (t :: cs) comment (.consts clauses comment t.location)
  | vars {place t cs clauses comment} : t.kind = .keyword .var →
      Separated .semicolon IsClause cs clauses →
      IsLine strict place (t :: cs) comment (.vars clauses comment t.location)
  | returns {t vs value comment} : t.kind = .keyword .return → IsReturned vs value →
      IsLine strict .block (t :: vs) comment (.returns value comment t.location)
  | comment {place} {t : Token} : t.kind = .comment →
      IsLine strict place [t] none (.empty (some t.text) t.location)
  | imports {t ps paths comment} : t.kind = .keyword .import → Separated .comma IsPath ps paths →
      IsLine strict .file (t :: ps) comment (.imports paths comment t.location)
  | moduleName {t : Token} {ps path comment} : t.kind = .identifier → t.text = "module" →
      IsPath ps path → IsLine strict .file (t :: ps) comment (.moduleName path comment t.location)

mutual

/-- A statement, and the tokens after it. -/
inductive IsStatement (strict : Bool) : Place → List Token → Statement → List Token → Prop where
  | line {place fs ls rest comment s} : IsLine strict place fs comment s →
      IsLineEnd ls comment rest → IsStatement strict place (fs ++ ls) s rest
  | procedure {place hs ls bs rest header body} : IsHeading hs header →
      IsLineEnd ls header.comment bs → IsBlock strict bs body rest →
      IsStatement strict place (hs ++ ls) (.procedure header body) rest
  | headerAlone {place hs ls rest header} : strict = false → IsHeading hs header →
      IsLineEnd ls header.comment rest → (∀ t ∈ rest.head?, t.kind ≠ .indent) →
      IsStatement strict place (hs ++ ls) (.procedure header []) rest

inductive IsBlock (strict : Bool) : List Token → List Statement → List Token → Prop where
  | intro {i u ts body rest} : i.kind = .indent → IsBody strict ts body (u :: rest) →
      u.kind = .unindent → IsBlock strict (i :: ts) body rest

/-- One statement or more. -/
inductive IsBody (strict : Bool) : List Token → List Statement → List Token → Prop where
  | one {ts s rest} : IsStatement strict .block ts s rest → IsBody strict ts [s] rest
  | more {ts us s body rest} : IsStatement strict .block ts s us → IsBody strict us body rest →
      IsBody strict ts (s :: body) rest

end

/-- Statements of the top level and empty lines, up to the end of the file. -/
inductive IsFile (strict : Bool) : List Token → List Statement → Prop where
  | nil : IsFile strict [] []
  | newline {t ts body} : t.kind = .newline → IsFile strict ts body → IsFile strict (t :: ts) body
  | statement {ts us s body} : IsStatement strict .file ts s us → IsFile strict us body →
      IsFile strict ts (s :: body)

end Grammar

end FirSyntax
