import FirSyntax.Location
import FirSyntax.Tree.Operator

/-!
# Tokens

The kinds of token, their spelling and how diagnostics name them. Layout is expressed by tokens
too: the end of a line, a deeper line, a line that closes a level, and a line whose width matches
no open level.
-/
namespace FirSyntax

/-- The reserved words. -/
inductive Keyword where
  | and
  | «class»
  | const
  | «else»
  | «for»
  | «if»
  | «import»
  | «in»
  | is
  | nil
  | not
  | optional
  | or
  | proc
  | «return»
  | var
  | «while»
  | «with»
  | yield
deriving DecidableEq, Repr

namespace Keyword

/-- The reserved words in alphabetical order. -/
def all : List Keyword :=
  [and, «class», const, «else», «for», «if», «import», «in», is, nil, not, optional, or, proc,
    «return», var, «while», «with», yield]

def spelling : Keyword → String
  | and => "and"
  | «class» => "class"
  | const => "const"
  | «else» => "else"
  | «for» => "for"
  | «if» => "if"
  | «import» => "import"
  | «in» => "in"
  | is => "is"
  | nil => "nil"
  | not => "not"
  | optional => "optional"
  | or => "or"
  | proc => "proc"
  | «return» => "return"
  | var => "var"
  | «while» => "while"
  | «with» => "with"
  | yield => "yield"

/-- The word spelled by a text. -/
def ofSpelling? (text : String) : Option Keyword := all.find? (·.spelling == text)

end Keyword

inductive Punctuation where
  | leftParen
  | rightParen
  | leftBracket
  | rightBracket
  | colon
  | semicolon
  | comma
  | dot
  | equal
  | plus
  | minus
  | asterisk
  | slash
  | percent
deriving DecidableEq, Repr

namespace Punctuation

def all : List Punctuation :=
  [leftParen, rightParen, leftBracket, rightBracket, colon, semicolon, comma, dot, equal, plus,
    minus, asterisk, slash, percent]

def char : Punctuation → Char
  | leftParen => '('
  | rightParen => ')'
  | leftBracket => '['
  | rightBracket => ']'
  | colon => ':'
  | semicolon => ';'
  | comma => ','
  | dot => '.'
  | equal => '='
  | plus => '+'
  | minus => '-'
  | asterisk => '*'
  | slash => '/'
  | percent => '%'

def ofChar? (c : Char) : Option Punctuation := all.find? (·.char == c)

/-- The binary operator that the sign stands for. -/
def operator? : Punctuation → Option Operator
  | plus => some .add
  | minus => some .sub
  | asterisk => some .mul
  | slash => some .div
  | percent => some .mod
  | _ => none

end Punctuation

namespace Token

inductive Kind where
  | unexpectedChar
  | malformedUnicode
  | indentMismatch
  | eof
  | newline
  | indent
  | unindent
  | comment
  | identifier
  | integer
  | punctuation (sign : Punctuation)
  | keyword (word : Keyword)
deriving DecidableEq, Repr

namespace Kind

/-- Kinds are numbered: faults below zero, the end of the file zero, words from one hundred on. -/
def code : Kind → Int
  | unexpectedChar => -3
  | malformedUnicode => -2
  | indentMismatch => -1
  | eof => 0
  | newline => 1
  | indent => 2
  | unindent => 3
  | comment => 4
  | identifier => 5
  | integer => 6
  | punctuation sign => 7 + Punctuation.all.idxOf sign
  | keyword word => 100 + Keyword.all.idxOf word

/-- Whether the kind stands for input that no program may hold. -/
def isFault (k : Kind) : Bool := k.code < 0

/-- The text of a kind that has only one. -/
def spelling? : Kind → Option String
  | punctuation sign => some (String.singleton sign.char)
  | keyword word => some word.spelling
  | _ => none

def operator? : Kind → Option Operator
  | punctuation sign => sign.operator?
  | _ => none

/-- The precedence of the operator, and a negative number for any other kind. -/
def precedence (k : Kind) : Int :=
  match k.operator? with
  | some op => op.precedence
  | none => -1

/-- Whether an expression can begin with the kind. -/
def opensExpression : Kind → Bool
  | punctuation .leftParen | identifier | integer | keyword .nil => true
  | _ => false

/-- How a diagnostic names the kind that it asks for. -/
def expectation : Kind → String
  | newline => "end of line"
  | indent => "indentation"
  | unindent => "un-indentation"
  | identifier => "an identifier"
  | integer => "an integer"
  | comment => "a comment"
  | eof => "end of file"
  | k =>
    match k.spelling? with
    | some text => s!"‘{text}’"
    | none => "a valid token"

end Kind

end Token

structure Token where
  kind : Token.Kind
  text : String
  location : Location
deriving DecidableEq, Repr

namespace Token

/-- A token without text of its own. -/
def bare (kind : Kind) (location : Location) : Token := ⟨kind, "", location⟩

/-- How a diagnostic names the token that it found. -/
def describe (t : Token) : String :=
  match t.kind with
  | .newline => "end of line"
  | .indent => "indentation"
  | .unindent => "un-indentation"
  | .comment => "comment"
  | .eof => "end of file"
  | .indentMismatch => "mismatched indentation"
  | .malformedUnicode => "malformed Unicode"
  | _ => s!"‘{t.text}’"

end Token

end FirSyntax
