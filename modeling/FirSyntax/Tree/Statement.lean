import FirSyntax.Tree.Clause

/-!
# Statements and source files

Every statement of one line keeps the comment at its end. A procedure has a header line and a body,
whose statements may be procedures again.
-/
namespace FirSyntax

/-- The first line of a procedure. -/
structure Header where
  name : Name
  parameters : List Clause
  result : TypeRef
  comment : Option String
  location : Location
deriving DecidableEq, Repr

inductive Statement where
  | empty (comment : Option String) (location : Location)
  | returns (value : Option Expr) (comment : Option String) (location : Location)
  | consts (clauses : List Clause) (comment : Option String) (location : Location)
  | vars (clauses : List Clause) (comment : Option String) (location : Location)
  | imports (paths : List DottedName) (comment : Option String) (location : Location)
  | moduleName (path : DottedName) (comment : Option String) (location : Location)
  | procedure (header : Header) (body : List Statement)
deriving Repr

namespace Statement

/-- The location of the statement's first token. -/
def location : Statement → Location
  | empty _ l | returns _ _ l | consts _ _ l | vars _ _ l | imports _ _ l
  | moduleName _ _ l => l
  | procedure header _ => header.location

/-- The header of a procedure. -/
def header? : Statement → Option Header
  | procedure header _ => some header
  | _ => none

end Statement

structure SourceFile where
  name : String
  directory : String
  body : List Statement
deriving Repr

/-- The headers of the procedures at the top level. -/
def SourceFile.procedures (file : SourceFile) : List Header := file.body.filterMap (·.header?)

end FirSyntax
