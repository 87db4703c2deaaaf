/-!
# Binary operators

The five operators of expressions, in two levels of precedence.
-/
namespace FirSyntax

inductive Operator where
  | add
  | sub
  | mul
  | div
  | mod
deriving DecidableEq, Repr

namespace Operator

/-- Operators of higher precedence bind more tightly. -/
def precedence : Operator → Nat
  | add | sub => 20
  | mul | div | mod => 40

def symbol : Operator → String
  | add => "+"
  | sub => "-"
  | mul => "*"
  | div => "/"
  | mod => "%"

end Operator

end FirSyntax
