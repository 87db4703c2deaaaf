import FirSyntax.Proofs.Source.Order
import FirSyntax.Proofs.Source.Spans

/-!
# What a span passes

A span takes the longest run of pieces at each of which its test holds of what is left. The run and
what is left behind it are the whole of what was left before.
-/
namespace FirSyntax.Source

/-- The test holds of what is left at each of the pieces `run`, in front of `rest`. -/
def Passes (p : List Piece → Bool) : List Piece → List Piece → Prop
  | [], _ => True
  | x :: run, rest => p (x :: (run ++ rest)) = true ∧ Passes p run rest

/-- The pieces `run` are all that a test takes, in front of `rest`. -/
structure Spans (p : List Piece → Bool) (run rest : List Piece) : Prop where
  passes : Passes p run rest
  stops : rest = [] ∨ p rest = false

variable {p q : List Piece → Bool} {x : Piece} {run rest : List Piece} {l : Location} {c : Cursor}

theorem Passes.mem (h : Passes p run rest) : ∀ x ∈ run, ∃ ys, p (x :: ys) = true := by
  induction run with
  | nil => exact fun x hx => absurd hx List.not_mem_nil
  | cons x run ih => exact List.forall_mem_cons.mpr ⟨⟨_, h.1⟩, ih h.2⟩

namespace Cursor

/-- What a span has taken before stands in front of what it takes. -/
theorem spanFrom_eq (p : List Piece → Bool) (taken rest : List Piece) (l : Location) :
    spanFrom p taken rest l = (taken.reverse ++ (span p ⟨rest, l⟩).1, (span p ⟨rest, l⟩).2) := by
  have hrest : (spanFrom p taken rest l).2 = (span p ⟨rest, l⟩).2 := spanFrom_taken p taken rest l
  apply Prod.ext
  · have hall := spanFrom_rest p taken rest l
    have hnew : (span p ⟨rest, l⟩).1 ++ (span p ⟨rest, l⟩).2.rest = rest := span_append p ⟨rest, l⟩
    rw [hrest] at hall
    apply (List.append_left_inj (span p ⟨rest, l⟩).2.rest).mp
    rw [hall, List.append_assoc, hnew]
  · exact hrest

theorem span_cons (h : p (x :: rest) = true) :
    (⟨x :: rest, l⟩ : Cursor).span p =
      (x :: (span p ⟨rest, after l (x :: rest)⟩).1, (span p ⟨rest, after l (x :: rest)⟩).2) := by
  rw [span, spanFrom, if_pos h, spanFrom_eq]
  rfl

theorem span_of_false (h : p c.rest = false) : c.span p = ([], c) := by
  obtain ⟨rest, l⟩ := c
  cases rest with
  | nil => rfl
  | cons x rest =>
    rw [span, spanFrom, if_neg (Bool.eq_false_iff.mp h)]
    rfl

theorem span_spans (p : List Piece → Bool) (c : Cursor) :
    Spans p (c.span p).1 (c.span p).2.rest := by
  obtain ⟨rest, l⟩ := c
  induction rest generalizing l with
  | nil => exact ⟨trivial, .inl rfl⟩
  | cons x rest ih =>
    cases h : p (x :: rest) with
    | false =>
      rw [span_of_false (c := ⟨x :: rest, l⟩) h]
      exact ⟨trivial, .inr h⟩
    | true =>
      obtain ⟨hpasses, hstops⟩ := ih (after l (x :: rest))
      have happend := span_append p ⟨rest, after l (x :: rest)⟩
      rw [span_cons h]
      refine ⟨⟨?_, hpasses⟩, hstops⟩
      rw [happend]
      exact h

/-- A span may stop first where a narrower test does. -/
theorem span_of_narrower (hpq : ∀ ys, p ys = true → q ys = true) (c : Cursor) :
    c.span q = ((c.span p).1 ++ ((c.span p).2.span q).1, ((c.span p).2.span q).2) := by
  obtain ⟨rest, l⟩ := c
  induction rest generalizing l with
  | nil => rfl
  | cons x rest ih =>
    cases h : p (x :: rest) with
    | false =>
      rw [span_of_false (c := ⟨x :: rest, l⟩) h]
      rfl
    | true => rw [span_cons h, span_cons (hpq _ h), ih, List.cons_append]

/-- What a span takes and what it leaves. -/
theorem of_span {d : Cursor} (h : c.span p = (run, d)) :
    c.rest = run ++ d.rest ∧ Spans p run d.rest := by
  have happend := span_append p c
  have hspans := span_spans p c
  rw [h] at happend hspans
  exact ⟨happend.symm, hspans⟩

end Cursor

end FirSyntax.Source
