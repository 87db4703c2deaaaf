import FirSyntax.Token.Basic

/-!
# Diagnostics

What can be wrong with a source text, the wording of each fault, and how a fault is displayed with
its location.
-/
namespace FirSyntax

/-- What a rule of the grammar asks for. -/
inductive Expectation where
  | token (kind : Token.Kind)
  | expression
deriving DecidableEq, Repr

def Expectation.describe : Expectation → String
  | token kind => kind.expectation
  | expression => "an expression"

inductive Cause where
  /-- Another token stands where a rule asks for `wanted`. -/
  | expected (wanted : Expectation) (found : Token)
  /-- A line of the file begins with a token that opens no statement there. -/
  | notAtTopLevel
  /-- A line of a block begins with a token that opens no statement. -/
  | noStatement
  /-- Two constants are separated as the names of one clause are. -/
  | constantComma
  /-- A clause declares one constant without a value. -/
  | constantWithoutValue (name : String)
deriving DecidableEq, Repr

def Cause.message : Cause → String
  | expected wanted found => s!"Expected {wanted.describe}, found {found.describe}"
  | notAtTopLevel => "Expected const, proc, var, or comment"
  | noStatement => "Expected a statement"
  | constantComma => "Constants must be separated by ‘;’, not ‘,’"
  | constantWithoutValue name => s!"Constant “{name}” must have a value"

structure Diagnostic where
  cause : Cause
  location : Location
deriving DecidableEq, Repr

namespace Diagnostic

def message (d : Diagnostic) : String := d.cause.message

/-- The diagnostic on its own, without the name of a file. -/
def display (d : Diagnostic) : String :=
  s!"Parse error at line {d.location.line}, column {d.location.column}: {d.message}"

end Diagnostic

end FirSyntax
