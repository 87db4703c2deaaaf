/-!
# Decimal integers

The value of a decimal literal with an optional sign, and the shortest literal of an integer: no
plus sign, no leading zero, and no sign on zero.
-/
namespace FirSyntax.Decimal

/-- The value of a row of digits. -/
def valueOfDigits (ds : List Char) : Nat :=
  ds.foldl (fun n d => 10 * n + (d.toNat - '0'.toNat)) 0

def value (text : String) : Int :=
  match text.toList with
  | '-' :: ds => -(valueOfDigits ds : Int)
  | '+' :: ds => valueOfDigits ds
  | ds => valueOfDigits ds

def text : Int → String
  | .ofNat n => Nat.repr n
  | .negSucc n => "-" ++ Nat.repr (n + 1)

end FirSyntax.Decimal
