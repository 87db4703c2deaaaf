import FirSyntax.Reading.Basic
import FirSyntax.Tree.Decimal

/-!
# Reading expressions

An expression is a primary followed by operators and further primaries, where a primary is an atom
with any number of members. Operators are attached by climbing: an operand is extended first by all
operators that bind more tightly than the one before it, so operators of one precedence associate
to the left.
-/
namespace FirSyntax

open Token

/-- A token that stands for an operator is not the end of the file. -/
theorem Token.Kind.ne_eof_of_operator {k : Kind} {op : Operator} (h : k.operator? = some op) :
    k ≠ .eof := by
  rintro rfl
  cases h

namespace Expr

/-- The expression that an identifier stands for. -/
def ofIdentifier (t : Token) : Expr :=
  if t.text = "true" then .bool true t.location
  else if t.text = "false" then .bool false t.location
  else .name ⟨t.text, t.location⟩

/-- The members that follow an expression. -/
def readMembers (receiver : Expr) (r : Reading) : Outcome Expr r.remaining :=
  if hdot : r.current.kind = .punctuation .dot then
    have hlt := Reading.remaining_advance_lt (r := r) (by simp [hdot])
    (r.advance.expectName.andThen fun member after h =>
      (readMembers (.dot receiver member r.current.location) after).within h).within
        (Nat.le_of_lt hlt)
  else .here receiver r
termination_by r.remaining
decreasing_by omega

mutual

/-- An expression as long as it gets. -/
def read (r : Reading) : Outcome Expr r.remaining :=
  (readPrimary r).andThen fun first after h =>
  (climb 0 first after).within h
termination_by 4 * r.remaining + 3
decreasing_by all_goals omega

/-- The operators of precedence `least` or more that follow an operand, with their operands. -/
def climb (least : Nat) (left : Expr) (r : Reading) : Outcome Expr r.remaining :=
  match hop : r.current.kind.operator? with
  | none => .here left r
  | some op =>
    if op.precedence < least then .here left r
    else
      have hlt := Reading.remaining_advance_lt (Kind.ne_eof_of_operator hop)
      ((readPrimary r.advance).andThen fun operand after h =>
        (if (op.precedence : Int) < after.current.kind.precedence then
          (climb (op.precedence + 1) operand after).within h
        else .done operand after h).andThen fun right after h =>
        (climb least (.binary op left right r.current.location) after).within h).within
          (Nat.le_of_lt hlt)
termination_by 4 * r.remaining
decreasing_by all_goals omega

/-- An atom with its members. -/
def readPrimary (r : Reading) : Outcome Expr r.remaining :=
  (readAtom r).andThen fun atom after h =>
  (readMembers atom after).within h
termination_by 4 * r.remaining + 2
decreasing_by all_goals omega

/-- A literal, a name, or an expression in parentheses. An integer token spells digits behind an
optional sign, so it always has a value and no integer is refused. -/
def readAtom (r : Reading) : Outcome Expr r.remaining :=
  match hkind : r.current.kind with
  | .punctuation .leftParen =>
    have hlt := Reading.remaining_advance_lt (r := r) (by simp [hkind])
    ((read r.advance).andThen fun inner after h =>
      ((after.expect (.punctuation .rightParen)).within h).andThen fun _ after h =>
      .done inner after h).within (Nat.le_of_lt hlt)
  | .identifier => .taking (ofIdentifier r.current) r
  | .integer => .taking (.int (Decimal.value r.current.text) r.current.location) r
  | .keyword .nil => .taking (.nil r.current.location) r
  | _ => .refused .expression r
termination_by 4 * r.remaining + 1
decreasing_by all_goals omega

end

/-- One expression that takes up the whole of a stream, or at least its first line. -/
def readLine (r : Reading) : Outcome Expr r.remaining :=
  (read r).andThen fun e after h =>
  (after.expectLineEnd.within h).andThen fun _ after h =>
  .done e after h

/-- The expression that a text holds, and the diagnostics. -/
def parse (U : Unicode.CharData) (text : String) : Option Expr × List Diagnostic :=
  let line := readLine (Reading.start (Stream.ofBytes U (Source.utf8 text)))
  (line.value, line.after.diagnostics)

end Expr

end FirSyntax
