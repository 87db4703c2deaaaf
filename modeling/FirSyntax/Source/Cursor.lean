import FirSyntax.Location
import FirSyntax.Source.Blank

/-!
# A place in the input

A cursor holds the pieces still to be read and the location of the first of them. Locations are
counted as the cursor moves: a line terminator leads to the next line, any other piece to the next
column. A span moves over pieces as long as a test holds of what is left.
-/
namespace FirSyntax.Source

structure Cursor where
  rest : List Piece
  location : Location
deriving DecidableEq, Repr

/-- The location after the first of the pieces `rest`, which stands at `l`. -/
def after (l : Location) (rest : List Piece) : Location :=
  if endsLine rest then l.nextLine else l.nextColumn

namespace Cursor

/-- The beginning of a source file. -/
def start (pieces : List Piece) : Cursor := ⟨pieces, Location.start⟩

/-- Over one piece. -/
def step (c : Cursor) : Cursor :=
  match c.rest with
  | [] => c
  | _ :: rest => ⟨rest, after c.location c.rest⟩

/-- Over pieces while `p` holds of what is left, with those passed (`taken`, the latest first). -/
def spanFrom (p : List Piece → Bool) (taken : List Piece) :
    List Piece → Location → List Piece × Cursor
  | [], l => (taken.reverse, ⟨[], l⟩)
  | x :: rest, l =>
    if p (x :: rest) then spanFrom p (x :: taken) rest (after l (x :: rest))
    else (taken.reverse, ⟨x :: rest, l⟩)

/-- The pieces in front as long as `p` holds of what is left, and the cursor after them. -/
def span (p : List Piece → Bool) (c : Cursor) : List Piece × Cursor :=
  spanFrom p [] c.rest c.location

/-- The cursor after the pieces that `p` passes. -/
def skip (p : List Piece → Bool) (c : Cursor) : Cursor := (c.span p).2

theorem spanFrom_rest (p : List Piece → Bool) (taken rest : List Piece) (l : Location) :
    (spanFrom p taken rest l).1 ++ (spanFrom p taken rest l).2.rest = taken.reverse ++ rest := by
  induction rest generalizing taken l with
  | nil => simp [spanFrom]
  | cons x rest ih =>
    unfold spanFrom
    split
    · simp [ih]
    · simp

/-- A span splits what is left. -/
theorem span_append (p : List Piece → Bool) (c : Cursor) :
    (c.span p).1 ++ (c.span p).2.rest = c.rest := by
  simpa [span] using spanFrom_rest p [] c.rest c.location

theorem length_span_le (p : List Piece → Bool) (c : Cursor) :
    (c.span p).2.rest.length ≤ c.rest.length := by
  have h := congrArg List.length (span_append p c)
  rw [List.length_append] at h
  omega

theorem length_skip_le (p : List Piece → Bool) (c : Cursor) :
    (c.skip p).rest.length ≤ c.rest.length :=
  length_span_le p c

theorem rest_step (c : Cursor) : c.step.rest = c.rest.tail := by
  unfold step
  split
  · next h => rw [h, List.tail_nil]
  · next h => rw [h, List.tail_cons]

theorem length_step (c : Cursor) : c.step.rest.length = c.rest.length - 1 := by
  rw [rest_step, List.length_tail]

end Cursor

end FirSyntax.Source
