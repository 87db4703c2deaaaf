import FirSyntax.Tree.Decimal
import FirSyntax.Tree.Expr

/-!
# Expressions as text

Parentheses are written where the shape of the tree would be lost without them: around a left
operand of lower precedence, a right operand of lower or equal precedence, and an operation whose
member is taken.
-/
namespace FirSyntax.Expr

/-- A text in parentheses if it needs them. -/
def grouped (needed : Bool) (text : String) : String :=
  if needed then "(" ++ text ++ ")" else text

/-- Whether an expression is an operation that binds less tightly than `precedence`. -/
def looserThan (e : Expr) (precedence : Nat) : Bool :=
  match e with
  | binary op _ _ _ => op.precedence < precedence
  | _ => false

def write : Expr → String
  | bool true _ => "true"
  | bool false _ => "false"
  | int value _ => Decimal.text value
  | nil _ => "nil"
  | name n => n.text
  | dot receiver member _ =>
    match receiver with
    | int _ _ => receiver.write ++ " ." ++ member.text
    | binary _ _ _ _ => grouped true receiver.write ++ "." ++ member.text
    | _ => receiver.write ++ "." ++ member.text
  | binary op left right _ =>
    grouped (left.looserThan op.precedence) left.write ++ " " ++ op.symbol ++ " " ++
      grouped (right.looserThan (op.precedence + 1)) right.write

end FirSyntax.Expr
