import FirSyntax.Source.Piece
import FirSyntax.Unicode.CharData
import FirSyntax.Unicode.Hangul

/-!
# Normalization form KC

Every code point is decomposed, marks are put into canonical order, and each starter is composed
with the unblocked code points after it. Bytes are normalized only when they are well-formed UTF-8.
-/
namespace FirSyntax.Unicode

/-- Bytes to be normalized are not UTF-8 from `offset` on. -/
structure MalformedText where
  offset : Nat
deriving DecidableEq, Repr

def MalformedText.message (e : MalformedText) : String :=
  s!"malformed UTF-8 at byte offset {e.offset}"

namespace CharData

variable (U : CharData)

/-- The decomposition of one code point. -/
def expand (c : Char) : List Char :=
  (Hangul.decompose? c).getD (U.decomposition c)

/-- `c` before a text in canonical order: it moves behind the marks of smaller class. -/
def insertMark (c : Char) : List Char → List Char
  | [] => [c]
  | d :: ds =>
    if 0 < U.combiningClass d && U.combiningClass d < U.combiningClass c then
      d :: insertMark c ds
    else c :: d :: ds

/-- Marks between two starters sorted by class, marks of one class kept as they are. -/
def canonicalOrder (cs : List Char) : List Char := cs.foldr U.insertMark []

/-- Compatibility decomposition in canonical order. -/
def decompose (cs : List Char) : List Char := U.canonicalOrder (cs.flatMap U.expand)

/-- The composite of a starter and a later code point. -/
def composePair? (a b : Char) : Option Char :=
  if Hangul.isLead a || Hangul.isSyllable a then Hangul.compose? a b else U.composite? a b

/-- A composition in progress. -/
structure Composing where
  /-- What is finished, the latest first. -/
  done : List Char
  /-- The last starter met, which later marks may still change. -/
  starter : Option Char
  /-- The marks kept since then, the latest first. -/
  marks : List Char

namespace Composing

/-- All that was kept, the latest first. -/
def kept (s : Composing) : List Char := s.marks ++ (s.starter.toList ++ s.done)

/-- Keep `c` as it is. -/
def keep (s : Composing) (c : Char) : Composing :=
  if U.isStarter c then ⟨s.kept, some c, []⟩ else { s with marks := c :: s.marks }

/-- Whether a kept mark stands between the starter and `c` and cuts `c` off. -/
def blocks (s : Composing) (c : Char) : Bool :=
  match s.marks with
  | d :: _ => U.isStarter d || U.combiningClass c ≤ U.combiningClass d
  | [] => false

/-- The composite of the starter with `c`, if nothing blocks it. -/
def absorb? (s : Composing) (c : Char) : Option Char :=
  if s.blocks U c then none else s.starter.bind (U.composePair? · c)

def push (s : Composing) (c : Char) : Composing :=
  match s.absorb? U c with
  | some composite => { s with starter := some composite }
  | none => s.keep U c

end Composing

/-- Canonical composition of a text in canonical order. -/
def compose (cs : List Char) : List Char :=
  (cs.foldl (Composing.push U) ⟨[], none, []⟩).kept.reverse

/-- Normalization form KC of a list of code points. -/
def normalize (cs : List Char) : List Char := U.compose (U.decompose cs)

/-- Normalization form KC. -/
def nfkc (text : String) : String := String.ofList (U.normalize text.toList)

/-- Normalization of pieces, of which all must be code points; `offset` is where they begin. -/
def normalizePieces (offset : Nat) (cs : List Char) :
    List Source.Piece → Except MalformedText String
  | [] => .ok (String.ofList (U.normalize cs.reverse))
  | .char c :: rest =>
    normalizePieces (offset + (String.utf8EncodeChar c).length) (c :: cs) rest
  | .invalid _ :: _ => .error ⟨offset⟩

/-- Normalization of UTF-8 bytes. -/
def nfkcOfBytes (bytes : List UInt8) : Except MalformedText String :=
  U.normalizePieces 0 [] (Source.decode bytes)

end CharData

end FirSyntax.Unicode
