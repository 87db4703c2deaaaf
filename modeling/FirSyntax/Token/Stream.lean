import FirSyntax.Source.Decoder
import FirSyntax.Token.Scanner

/-!
# Token streams

All tokens of an input, and the place where it ends. The end of the file may be looked at and
passed any number of times. A lexer gives the same tokens one by one, through a window of two, and
remembers the words that it had to normalize.
-/
namespace FirSyntax.Token

open Source Unicode

/-- The tokens before the end of the file, and the location of that end. -/
structure Stream where
  tokens : List Token
  ending : Location
deriving DecidableEq, Repr

namespace Stream

/-- The token in front. -/
def head (s : Stream) : Token := s.tokens.headD (bare .eof s.ending)

def tail (s : Stream) : Stream := { s with tokens := s.tokens.tail }

/-- The stream behind its first `n` tokens. -/
def drop (s : Stream) (n : Nat) : Stream := { s with tokens := s.tokens.drop n }

/-- The number of tokens before the end of the file. -/
def length (s : Stream) : Nat := s.tokens.length

theorem length_tail_le (s : Stream) : s.tail.length ≤ s.length := by
  simp [tail, length]

/-- Only the end of the file can be passed without a token less. -/
theorem length_tail_lt {s : Stream} (h : s.head.kind ≠ .eof) : s.tail.length < s.length := by
  obtain ⟨tokens, ending⟩ := s
  cases tokens with
  | nil => exact absurd rfl h
  | cons t ts => simp [tail, length]

end Stream

/-- The tokens from a scanner on, behind those already found (`done`, the latest first). -/
def Scanner.drain (U : CharData) (done : List Token) (s : Scanner) : Stream :=
  if _ : (s.scan U).1.kind = .eof then ⟨done.reverse, (s.scan U).1.location⟩
  else drain U ((s.scan U).1 :: done) (s.scan U).2
termination_by s.weight
decreasing_by exact weight_scan U ‹_›

/-- The tokens of pieces. -/
def Stream.ofPieces (U : CharData) (pieces : List Piece) : Stream :=
  (Scanner.start pieces).drain U []

/-- The tokens of a source file. -/
def Stream.ofBytes (U : CharData) (bytes : List UInt8) : Stream :=
  ofPieces U (Source.ofBytes bytes)

/-- The token looked at and the one after it. -/
structure Window where
  current : Token
  next : Token
deriving DecidableEq, Repr

/-- Whether the token looked at is not the end of the file. -/
def Window.more (w : Window) : Bool := w.current.kind != .eof

structure Lexer where
  scanner : Scanner
  memo : Memo
  window : Window
deriving DecidableEq, Repr

namespace Lexer

/-- A lexer in front of its first token: nothing is looked at yet. -/
def start (U : CharData) (pieces : List Piece) : Lexer :=
  let first := (Scanner.start pieces).scanWith U .empty
  ⟨first.2.2, first.2.1, ⟨bare .eof Location.start, first.1⟩⟩

/-- The window one token further on. -/
def advance (U : CharData) (l : Lexer) : Lexer :=
  let next := l.scanner.scanWith U l.memo
  ⟨next.2.2, next.2.1, ⟨l.window.next, next.1⟩⟩

/-- The token that the next advance brings to the front, unless the file has ended. -/
def next? (U : CharData) (l : Lexer) : Option Token :=
  if (l.advance U).window.more then some (l.advance U).window.current else none

end Lexer

end FirSyntax.Token
