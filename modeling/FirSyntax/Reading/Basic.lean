import FirSyntax.Diagnostic
import FirSyntax.Token.Stream
import FirSyntax.Tree.Expr

/-!
# Readings

A reading is a place in a token stream together with what has been seen on the way: the last token
consumed, the number of open levels and the diagnostics reported. The grammar is read by functions
from a reading to a step, which holds a result, the reading after it and the fact that no token was
given back; this fact bounds every recursion of the grammar.
-/
namespace FirSyntax

open Token

structure Reading where
  stream : Stream
  /-- The kind of the last token consumed; of the end of a file when there is none. -/
  previous : Kind
  /-- The indentations consumed that are not yet closed. -/
  depth : Nat
  /-- The diagnostics reported, the latest first. -/
  reports : List Diagnostic
  /-- The number of times that a diagnostic was handed on. -/
  errorCount : Nat
deriving DecidableEq, Repr

namespace Reading

/-- The reading in front of a stream. -/
def start (stream : Stream) : Reading := ⟨stream, .eof, 0, [], 0⟩

def current (r : Reading) : Token := r.stream.head

/-- The token after the current one. -/
def upcoming (r : Reading) : Token := r.stream.tail.head

/-- The number of tokens before the end of the file. -/
def remaining (r : Reading) : Nat := r.stream.length

/-- The diagnostics in the order in which they were reported. -/
def diagnostics (r : Reading) : List Diagnostic := r.reports.reverse

/-- The depth after a token. -/
def depthAfter (depth : Nat) : Kind → Nat
  | .indent => depth + 1
  | .unindent | .indentMismatch => depth - 1
  | _ => depth

/-- Past the current token; the end of the file stays. -/
def advance (r : Reading) : Reading :=
  if r.current.kind = .eof then r
  else { r with stream := r.stream.tail, previous := r.current.kind,
                depth := depthAfter r.depth r.current.kind }

/-- A diagnostic at a location, unless the last one was reported there too. -/
def report (r : Reading) (location : Location) (cause : Cause) : Reading :=
  if r.reports.head?.map (·.location) = some location then r
  else { r with reports := ⟨cause, location⟩ :: r.reports, errorCount := r.errorCount + 1 }

/-- A diagnostic that something else was wanted in place of the current token. -/
def reportExpected (r : Reading) (wanted : Expectation) : Reading :=
  r.report r.current.location (.expected wanted r.current)

@[simp] theorem stream_report (r : Reading) (l : Location) (c : Cause) :
    (r.report l c).stream = r.stream := by
  unfold report
  split <;> rfl

@[simp] theorem current_report (r : Reading) (l : Location) (c : Cause) :
    (r.report l c).current = r.current := by
  simp [current]

@[simp] theorem remaining_report (r : Reading) (l : Location) (c : Cause) :
    (r.report l c).remaining = r.remaining := by
  simp [remaining]

@[simp] theorem current_reportExpected (r : Reading) (w : Expectation) :
    (r.reportExpected w).current = r.current := by
  simp [reportExpected]

@[simp] theorem remaining_reportExpected (r : Reading) (w : Expectation) :
    (r.reportExpected w).remaining = r.remaining := by
  simp [reportExpected]

theorem remaining_advance_le (r : Reading) : r.advance.remaining ≤ r.remaining := by
  unfold advance
  split
  · exact Nat.le_refl _
  · exact Stream.length_tail_le _

/-- Every token but the end of the file is consumed. -/
theorem remaining_advance_lt {r : Reading} (h : r.current.kind ≠ .eof) :
    r.advance.remaining < r.remaining := by
  simp only [advance, h, if_false]
  exact Stream.length_tail_lt h

end Reading

/-- A result read from a stream, and the reading after it, with at most `n` tokens left. -/
structure Step (α : Type) (n : Nat) where
  value : α
  after : Reading
  bounded : after.remaining ≤ n

/-- A step that has no result when the grammar was broken. -/
abbrev Outcome (α : Type) (n : Nat) := Step (Option α) n

namespace Step

variable {α β : Type} {n m : Nat}

/-- A step seen from further back in the stream. -/
@[inline] def within (s : Step α n) (h : n ≤ m) : Step α m :=
  ⟨s.value, s.after, Nat.le_trans s.bounded h⟩

/-- One step after another. -/
@[inline] def next (s : Step α n) (f : (a : α) → (r : Reading) → r.remaining ≤ n → Step β n) :
    Step β n :=
  f s.value s.after s.bounded

@[inline] def done (a : α) (r : Reading) (h : r.remaining ≤ n) : Outcome α n := ⟨some a, r, h⟩

@[inline] def failed (r : Reading) (h : r.remaining ≤ n) : Outcome α n := ⟨none, r, h⟩

/-- A result that takes no token. -/
def here (a : α) (r : Reading) : Outcome α r.remaining := ⟨some a, r, Nat.le_refl _⟩

/-- A result that takes the current token. -/
def taking (a : α) (r : Reading) : Outcome α r.remaining :=
  ⟨some a, r.advance, Reading.remaining_advance_le r⟩

/-- No result, because something else was wanted in place of the current token. -/
def refused (wanted : Expectation) (r : Reading) : Outcome α r.remaining :=
  ⟨none, r.reportExpected wanted, Nat.le_of_eq (Reading.remaining_reportExpected r wanted)⟩

/-- A step with a diagnostic at its end. -/
def reporting (s : Step α n) (location : Location) (cause : Cause) : Step α n :=
  ⟨s.value, s.after.report location cause,
    Nat.le_trans (Nat.le_of_eq (Reading.remaining_report ..)) s.bounded⟩

/-- One step after another, as long as there are results. -/
@[inline] def andThen (s : Outcome α n)
    (f : (a : α) → (r : Reading) → r.remaining ≤ n → Outcome β n) : Outcome β n :=
  match s with
  | ⟨some a, r, h⟩ => f a r h
  | ⟨none, r, h⟩ => failed r h

end Step

namespace Reading

/-- The current token, which must have a kind. -/
def expect (r : Reading) (kind : Kind) : Outcome Token r.remaining :=
  if r.current.kind = kind then .taking r.current r else .refused (.token kind) r

/-- An identifier. -/
def expectName (r : Reading) : Outcome Name r.remaining :=
  (r.expect .identifier).andThen fun token r h => .done ⟨token.text, token.location⟩ r h

/-- Whether the current token has a kind; if so it is consumed. -/
def accept (r : Reading) (kind : Kind) : Step Bool r.remaining :=
  if r.current.kind = kind then ⟨true, r.advance, remaining_advance_le r⟩
  else ⟨false, r, Nat.le_refl _⟩

/-- Whether the line ends at the current token. Where the file ends without a line terminator, the
levels are closed directly after the last token of the line. -/
def atLineEnd (r : Reading) : Bool :=
  match r.current.kind with
  | .newline | .eof => true
  | .unindent => r.previous != .newline && r.previous != .unindent
  | _ => false

/-- The end of the line; its terminator is consumed if there is one. -/
def expectLineEnd (r : Reading) : Outcome Unit r.remaining :=
  if r.atLineEnd then
    (r.accept .newline).next fun _ r h => .done () r h
  else .refused (.token .newline) r

/-- An optional comment and the end of the line. -/
def finishLine (r : Reading) : Outcome (Option String) r.remaining :=
  let comment := if r.current.kind = .comment then some r.current.text else none
  (r.accept .comment).next fun _ r h =>
  (r.expectLineEnd.within h).andThen fun _ r h =>
  .done comment r h

/-- One item or more, with a sign between them. -/
def separated {α : Type} (sign : Punctuation) (item : (r : Reading) → Outcome α r.remaining)
    (r : Reading) : Outcome (List α) r.remaining :=
  (item r).andThen fun first after h =>
  if hsign : after.current.kind = .punctuation sign then
    have hlt := remaining_advance_lt (r := after) (by simp [hsign])
    ((separated sign item after.advance).within (by omega)).andThen fun rest after h =>
    .done (first :: rest) after h
  else .done [first] after h
termination_by r.remaining
decreasing_by omega

end Reading

end FirSyntax
