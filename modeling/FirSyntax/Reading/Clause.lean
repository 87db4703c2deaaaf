import FirSyntax.Reading.Expr
import FirSyntax.Tree.Statement

/-!
# Reading declarations

Paths, types, clauses and the headers of procedures. Two faults of a constant's clause leave the
clause whole: names separated by commas, and a single name without a value.
-/
namespace FirSyntax

open Token

/-- Names with dots between them. -/
def DottedName.read (r : Reading) : Outcome DottedName r.remaining :=
  (r.separated .dot Reading.expectName).andThen fun names after h =>
  .done ⟨names⟩ after h

/-- A path, which may be marked as optional. -/
def TypeRef.read (r : Reading) : Outcome TypeRef r.remaining :=
  (r.accept (.keyword .optional)).next fun optional after h =>
  ((DottedName.read after).within h).andThen fun path after h =>
  .done ⟨optional, path.names.map (·.text), r.current.location⟩ after h

namespace Clause

/-- Past a comma between names, which is a fault between constants. -/
def skipComma (constant : Bool) (r : Reading) : Reading :=
  if constant then r.advance.report r.current.location .constantComma else r.advance

theorem remaining_skipComma (constant : Bool) (r : Reading) :
    (skipComma constant r).remaining = r.advance.remaining := by
  cases constant <;> simp [skipComma]

/-- The names of a clause. -/
def readNames (constant : Bool) (r : Reading) : Outcome (List Name) r.remaining :=
  r.expectName.andThen fun first after h =>
  if hcomma : after.current.kind = .punctuation .comma then
    have hlt : (skipComma constant after).remaining < after.remaining := by
      rw [remaining_skipComma]
      exact Reading.remaining_advance_lt (by simp [hcomma])
    ((readNames constant (skipComma constant after)).within (by omega)).andThen fun rest after h =>
    .done (first :: rest) after h
  else .done [first] after h
termination_by r.remaining
decreasing_by omega

/-- A type, if a colon announces one. -/
def readType (r : Reading) : Outcome TypeRef r.remaining :=
  (r.accept (.punctuation .colon)).next fun given after h =>
  if given then (TypeRef.read after).within h else .done TypeRef.unspecified after h

/-- An initial value, if an equals sign announces one. -/
def readValue (r : Reading) : Outcome (Option Expr) r.remaining :=
  (r.accept (.punctuation .equal)).next fun given after h =>
  if given then ((Expr.read after).within h).andThen fun value after h => .done (some value) after h
  else .done none after h

/-- The name of a constant that is declared alone and without a value. -/
def valueless? (clause : Clause) : Option Name :=
  match clause.names, clause.value with
  | [name], none => some name
  | _, _ => none

def read (constant : Bool) (r : Reading) : Outcome Clause r.remaining :=
  (readNames constant r).andThen fun names after h =>
  ((readType after).within h).andThen fun type after h =>
  ((readValue after).within h).andThen fun value after h =>
  let clause : Clause := ⟨names, type, value⟩
  match constant, clause.valueless? with
  | true, some name =>
    (Step.done clause after h).reporting name.location (.constantWithoutValue name.text)
  | _, _ => .done clause after h

/-- Clauses with semicolons between them. -/
def readAll (constant : Bool) (r : Reading) : Outcome (List Clause) r.remaining :=
  r.separated .semicolon (read constant)

end Clause

namespace Header

/-- The clauses between the parentheses of a header. -/
def readParameters (r : Reading) : Outcome (List Clause) r.remaining :=
  if r.current.kind = .punctuation .rightParen then .here [] r
  else Clause.readAll false r

/-- The type after the colon of a header, if there is one. -/
def readResult (r : Reading) : Outcome TypeRef r.remaining :=
  match r.current.kind with
  | .identifier | .keyword .optional => TypeRef.read r
  | _ => .here TypeRef.unspecified r

/-- A header from its name on; `location` is where its first word stands. -/
def read (location : Location) (r : Reading) : Outcome Header r.remaining :=
  r.expectName.andThen fun name after h =>
  ((after.expect (.punctuation .leftParen)).within h).andThen fun _ after h =>
  ((readParameters after).within h).andThen fun parameters after h =>
  ((after.expect (.punctuation .rightParen)).within h).andThen fun _ after h =>
  ((after.expect (.punctuation .colon)).within h).andThen fun _ after h =>
  ((readResult after).within h).andThen fun result after h =>
  (after.finishLine.within h).andThen fun comment after h =>
  .done ⟨name, parameters, result, comment, location⟩ after h

end Header

end FirSyntax
