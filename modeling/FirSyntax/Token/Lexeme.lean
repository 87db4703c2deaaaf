import FirSyntax.Source.Cursor
import FirSyntax.Token.Basic
import FirSyntax.Unicode.Normalization

/-!
# Lexemes

The tokens that are spelled inside a line: integers, comments, words and single characters. Each is
read from a cursor that stands at its first piece, and takes that piece at least.
-/
namespace FirSyntax.Token

open Source Unicode

/-- Whether the first piece is an ASCII digit. -/
def atDigit : List Piece → Bool
  | p :: _ => p.isChar Char.isDigit
  | [] => false

/-- A digit begins an integer, and so does a sign that a digit follows at once. -/
def beginsInteger (c : Char) (rest : List Piece) : Bool :=
  c.isDigit || (c == '+' || c == '-') && atDigit rest

/-- Whether the first piece belongs to a word once it has begun. Bytes that encode nothing do, so
that the word as a whole is found malformed. -/
def atWordPart (U : CharData) : List Piece → Bool
  | p :: _ => p.isInvalid || p.isChar U.continuesIdentifier
  | [] => false

/-- Reserved words are recognized by their spelling. -/
def kindOfWord (text : String) : Kind :=
  match Keyword.ofSpelling? text with
  | some word => .keyword word
  | none => .identifier

/-- The word made of the pieces of a run, in normalization form KC. A run of code points that are
certainly normal is taken as it is. -/
def ofRun (U : CharData) (run : List Piece) (location : Location) : Token :=
  if run.all (·.isChar U.isCertainlyNormal) then
    ⟨kindOfWord (shown run), shown run, location⟩
  else
    match U.normalizePieces 0 [] run with
    | .ok text => ⟨kindOfWord text, text, location⟩
    | .error _ => ⟨.malformedUnicode, shown run, location⟩

/-- The normal forms of runs that were met before, the latest first. -/
structure Memo where
  entries : List (List Piece × String)
deriving DecidableEq, Repr

namespace Memo

def empty : Memo := ⟨[]⟩

def find? (m : Memo) (run : List Piece) : Option String := m.entries.lookup run

def insert (m : Memo) (run : List Piece) (text : String) : Memo := ⟨(run, text) :: m.entries⟩

/-- The word made of the pieces of a run, which are normalized unless that was done before, and the
memo after it. Runs that cannot be normalized are not remembered. -/
def ofRun (U : CharData) (m : Memo) (run : List Piece) (location : Location) : Token × Memo :=
  if run.all (·.isChar U.isCertainlyNormal) then
    (⟨kindOfWord (shown run), shown run, location⟩, m)
  else
    match m.find? run with
    | some text => (⟨kindOfWord text, text, location⟩, m)
    | none =>
      match U.normalizePieces 0 [] run with
      | .ok text => (⟨kindOfWord text, text, location⟩, m.insert run text)
      | .error _ => (⟨.malformedUnicode, shown run, location⟩, m)

end Memo

/-- The kind of a character that stands alone. -/
def kindOfChar (c : Char) : Kind :=
  match Punctuation.ofChar? c with
  | some sign => .punctuation sign
  | none => .unexpectedChar

/-- An integer whose first piece is `first`. -/
def integer (first : Piece) (c : Cursor) : Token × Cursor :=
  let digits := c.step.span atDigit
  (⟨.integer, shown (first :: digits.1), c.location⟩, digits.2)

/-- A comment reaches to the end of the line; the white space around its text is no part of it. -/
def comment (c : Cursor) : Token × Cursor :=
  let body := (c.step.skip atInnerBlank).span (fun rest => !endsLine rest)
  (⟨.comment, String.ofList (trimEnd (body.1.map Piece.shown)), c.location⟩, body.2)

/-- A word whose first piece is `first`. -/
def word (U : CharData) (first : Piece) (c : Cursor) : Token × Cursor :=
  let run := c.step.span (atWordPart U)
  (ofRun U (first :: run.1) c.location, run.2)

/-- The lexeme at a cursor whose first piece is `first`, and the cursor after it. -/
def lexeme (U : CharData) (first : Piece) (c : Cursor) : Token × Cursor :=
  match first with
  | .invalid _ => (⟨.malformedUnicode, shown [first], c.location⟩, c.step)
  | .char ch =>
    if beginsInteger ch c.step.rest then integer first c
    else if ch = '#' then comment c
    else if U.beginsIdentifier ch then word U first c
    else (⟨kindOfChar ch, String.singleton ch, c.location⟩, c.step)

theorem length_lexeme_le (U : CharData) (first : Piece) (c : Cursor) :
    (lexeme U first c).2.rest.length ≤ c.step.rest.length := by
  unfold lexeme
  split
  · exact Nat.le_refl _
  · split
    · exact Cursor.length_span_le _ _
    · split
      · exact Nat.le_trans (Cursor.length_span_le _ _) (Cursor.length_skip_le _ _)
      · split
        · exact Cursor.length_span_le _ _
        · exact Nat.le_refl _

end FirSyntax.Token
