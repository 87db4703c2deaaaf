import FirSyntax.Location
import FirSyntax.Tree.Operator

/-!
# Expressions

Literals, names, members and binary operations. Grouping is in the shape of the tree; parentheses
of the source leave no other trace.
-/
namespace FirSyntax

/-- An identifier and where it stands. -/
structure Name where
  text : String
  location : Location
deriving DecidableEq, Repr

inductive Expr where
  | bool (value : Bool) (location : Location)
  | int (value : Int) (location : Location)
  | nil (location : Location)
  | name (name : Name)
  | dot (receiver : Expr) (member : Name) (location : Location)
  | binary (op : Operator) (left right : Expr) (location : Location)
deriving DecidableEq, Repr

namespace Expr

/-- A binary operation stands where its operator does, a member where its dot does. -/
def location : Expr → Location
  | bool _ l | int _ l | nil l | dot _ _ l | binary _ _ _ l => l
  | name n => n.location

/-- The precedence of a binary operation, and a negative number for any other expression. -/
def precedence : Expr → Int
  | binary op _ _ _ => op.precedence
  | _ => -1

end Expr

end FirSyntax
