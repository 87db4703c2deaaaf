import FirSyntax.Proofs.Source.Passing

/-!
# Places of pieces

The location of a piece is known from the input alone: its line from the line ends in front of it,
its column from the pieces behind the last of these. A cursor that moves over an input keeps to
these locations.
-/
namespace FirSyntax.Source

variable {p : List Piece → Bool} {input run rest : List Piece} {k : Nat} {c : Cursor}

/-- Whether the piece `i` ends a line; of CR LF only the second one does. -/
def endsLineAt (input : List Piece) (i : Nat) : Bool := endsLine (input.drop i)

/-- The pieces in front of the piece `k` on its line, the nearest first. -/
def lineBefore (input : List Piece) (k : Nat) : List Nat :=
  (List.range k).reverse.takeWhile fun i => !endsLineAt input i

/-- The location of the piece `k`. -/
def place (input : List Piece) (k : Nat) : Location :=
  ⟨1 + (List.range k).countP (endsLineAt input), 1 + (lineBefore input k).length⟩

theorem lineBefore_succ (input : List Piece) (k : Nat) :
    lineBefore input (k + 1) = if endsLineAt input k then [] else k :: lineBefore input k := by
  rw [lineBefore, List.range_succ, List.reverse_concat, List.takeWhile_cons]
  cases endsLineAt input k <;> rfl

theorem place_succ (input : List Piece) (k : Nat) :
    place input (k + 1) = after (place input k) (input.drop k) := by
  have hends : endsLine (input.drop k) = endsLineAt input k := rfl
  rw [place, lineBefore_succ, List.range_succ, List.countP_append, List.countP_singleton, after, hends]
  cases endsLineAt input k <;> rfl

namespace Cursor

/-- The cursor in front of the piece `k`. -/
def atPiece (input : List Piece) (k : Nat) : Cursor := ⟨input.drop k, place input k⟩

theorem step_atPiece (h : k < input.length) :
    (atPiece input k).step = atPiece input (k + 1) := by
  rw [atPiece, atPiece, place_succ, List.drop_eq_getElem_cons h]
  rfl

/-- Whatever moves over the input is in front of one of its pieces, or behind the last. -/
theorem Follows.exists_atPiece (h : (atPiece input k).Follows c) (hk : k ≤ input.length) :
    ∃ m, m ≤ input.length ∧ c = atPiece input m := by
  obtain ⟨n, rfl⟩ := h
  induction n with
  | zero => exact ⟨k, hk, rfl⟩
  | succ n ih =>
    obtain ⟨m, hm, heq⟩ := ih
    rw [Function.iterate_succ_apply', heq]
    rcases Nat.lt_or_eq_of_le hm with hlt | rfl
    · exact ⟨m + 1, hlt, step_atPiece hlt⟩
    · refine ⟨input.length, Nat.le_refl _, step_of_nil ?_⟩
      rw [atPiece, List.drop_length]

/-- How far a cursor has moved is known from what it has passed. -/
theorem Follows.eq_atPiece (h : (atPiece input k).Follows c) (hk : k ≤ input.length)
    (hrun : input.drop k = run ++ c.rest) : c = atPiece input (k + run.length) := by
  obtain ⟨m, hm, rfl⟩ := h.exists_atPiece hk
  have hlength := congrArg List.length hrun
  rw [List.length_append, atPiece, List.length_drop, List.length_drop] at hlength
  rw [show k + run.length = m by omega]

end Cursor

end FirSyntax.Source
