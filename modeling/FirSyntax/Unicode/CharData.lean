/-!
# Properties of code points

What normalization and identifiers need to know of each code point, as one record of look-ups. The
algorithms take the record as an argument, so their laws hold for any tables that satisfy the
conditions stated with them.
-/
namespace FirSyntax.Unicode

structure CharData where
  /-- The canonical combining class. -/
  combiningClass : Char → Nat
  /-- The full compatibility decomposition; Hangul syllables are decomposed by arithmetic. -/
  decomposition : Char → List Char
  /-- The primary composite of a canonical pair; Hangul is composed by arithmetic. -/
  composite? : Char → Char → Option Char
  /-- Whether the NFKC quick check of the code point alone says yes. -/
  quickCheck : Char → Bool
  /-- The properties XID_Start and XID_Continue. -/
  idStart : Char → Bool
  idContinue : Char → Bool

namespace CharData

variable (U : CharData)

def isStarter (c : Char) : Bool := U.combiningClass c == 0

/-- A text of such code points is already in NFKC. -/
def isCertainlyNormal (c : Char) : Bool :=
  decide (c.toNat < 0x80) || U.isStarter c && U.quickCheck c

/-- The code points that may begin an identifier. -/
def beginsIdentifier (c : Char) : Bool :=
  c.isAlpha || c == '_' || decide (0x80 ≤ c.toNat) && U.idStart c

/-- The code points that may stand inside an identifier. -/
def continuesIdentifier (c : Char) : Bool :=
  c.isAlphanum || c == '_' || decide (0x80 ≤ c.toNat) && U.idContinue c

end CharData

end FirSyntax.Unicode
