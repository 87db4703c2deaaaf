import FirSyntax.Source.Piece

/-!
# White space and ends of lines

The property White_Space of Unicode, the eight line terminators, and text without white space
around it. A carriage return ends a line only when no line feed follows it, so CR LF ends one
line and not two.
-/
namespace FirSyntax.Source

/-- The Unicode property White_Space. -/
def isBlank (c : Char) : Bool :=
  let n := c.toNat
  (0x09 ≤ n && n ≤ 0x0D) || n == 0x20 || n == 0x85 || n == 0xA0 || n == 0x1680 ||
    (0x2000 ≤ n && n ≤ 0x200A) || n == 0x2028 || n == 0x2029 || n == 0x202F ||
    n == 0x205F || n == 0x3000

/-- The code points that end a line whatever follows: LF, VT, FF, NEL, LS and PS. -/
def isTerminator (c : Char) : Bool :=
  c == '\n' || c == '\x0b' || c == '\x0c' || c == '\u0085' || c == '\u2028' || c == '\u2029'

/-- Whether the first piece ends a line. -/
def endsLine : List Piece → Bool
  | .char c :: rest => isTerminator c || c == '\r' && rest.head? != some (.char '\n')
  | _ => false

/-- Whether the first piece is white space. -/
def atBlank : List Piece → Bool
  | p :: _ => p.isChar isBlank
  | [] => false

/-- Whether the first piece is white space inside a line. -/
def atInnerBlank (pieces : List Piece) : Bool := atBlank pieces && !endsLine pieces

/-- A text without the white space at its end. -/
def trimEnd (cs : List Char) : List Char := (cs.reverse.dropWhile isBlank).reverse

end FirSyntax.Source
