import FirSyntax.Source.Cursor
import Mathlib.Order.Defs.LinearOrder
import Mathlib.Logic.Function.Iterate

/-!
# The order of places

Locations are ordered by line and column. A cursor that moves over a piece stands at a later
location, so that of the cursors that move over one input no two stand at the same location.
-/
namespace FirSyntax

namespace Location

variable {a b : Location}

theorem lt_iff : a < b ↔ a.line < b.line ∨ a.line = b.line ∧ a.column < b.column := Iff.rfl

theorem le_iff : a ≤ b ↔ a.line < b.line ∨ a.line = b.line ∧ a.column ≤ b.column := Iff.rfl

instance : LinearOrder Location where
  le_refl a := .inr ⟨rfl, Nat.le_refl _⟩
  le_trans a b c hab hbc := by
    rw [le_iff] at *
    omega
  lt_iff_le_not_ge a b := by
    rw [lt_iff, le_iff, le_iff]
    omega
  le_antisymm a b hab hba := by
    obtain ⟨line, column⟩ := a
    obtain ⟨line', column'⟩ := b
    simp only [le_iff] at hab hba
    obtain ⟨rfl, rfl⟩ : line = line' ∧ column = column' := by omega
    rfl
  le_total a b := by
    rw [le_iff, le_iff]
    omega
  toDecidableLE := inferInstance

end Location

namespace Source

theorem lt_after (l : Location) (rest : List Piece) : l < after l rest := by
  rw [after]
  split
  · exact .inl (Nat.lt_succ_self _)
  · exact .inr ⟨rfl, Nat.lt_succ_self _⟩

namespace Cursor

variable {c d e : Cursor} {p : List Piece → Bool}

/-- The cursor `d` is where `c` gets to over some number of pieces. -/
def Follows (c d : Cursor) : Prop := ∃ n, step^[n] c = d

theorem step_of_nil (h : c.rest = []) : c.step = c := by
  rw [step, h]

theorem location_step (h : c.rest ≠ []) : c.location < c.step.location := by
  obtain ⟨rest, l⟩ := c
  cases rest with
  | nil => exact absurd rfl h
  | cons x rest => exact lt_after l _

namespace Follows

theorem refl (c : Cursor) : c.Follows c := ⟨0, rfl⟩

theorem step (c : Cursor) : c.Follows c.step := ⟨1, rfl⟩

theorem trans (h : c.Follows d) (h' : d.Follows e) : c.Follows e := by
  obtain ⟨n, rfl⟩ := h
  obtain ⟨m, rfl⟩ := h'
  exact ⟨m + n, Function.iterate_add_apply _ _ _ _⟩

theorem spanFrom (taken rest : List Piece) (l : Location) :
    Follows ⟨rest, l⟩ (spanFrom p taken rest l).2 := by
  induction rest generalizing taken l with
  | nil => exact refl _
  | cons x rest ih =>
    rw [Cursor.spanFrom]
    split
    · exact (step ⟨x :: rest, l⟩).trans (ih _ _)
    · exact refl _

theorem span (p : List Piece → Bool) (c : Cursor) : c.Follows (c.span p).2 := spanFrom [] c.rest _

theorem skip (p : List Piece → Bool) (c : Cursor) : c.Follows (c.skip p) := span p c

/-- Only at the end of the input a cursor does not move. -/
theorem eq_or_lt (h : c.Follows d) : c = d ∨ c.location < d.location := by
  obtain ⟨n, rfl⟩ := h
  induction n with
  | zero => exact .inl rfl
  | succ n ih =>
    rw [Function.iterate_succ_apply']
    by_cases hrest : (Cursor.step^[n] c).rest = []
    · rwa [step_of_nil hrest]
    · right
      have hlt := location_step hrest
      cases ih with
      | inl heq => rwa [← heq] at hlt ⊢
      | inr hbefore => exact lt_trans hbefore hlt

theorem location_le (h : c.Follows d) : c.location ≤ d.location := by
  cases h.eq_or_lt with
  | inl heq => exact heq ▸ le_rfl
  | inr hlt => exact le_of_lt hlt

theorem total (hd : c.Follows d) (he : c.Follows e) : d.Follows e ∨ e.Follows d := by
  obtain ⟨n, rfl⟩ := hd
  obtain ⟨m, rfl⟩ := he
  cases Nat.le_total n m with
  | inl hle => exact .inl ⟨m - n, by rw [← Function.iterate_add_apply, Nat.sub_add_cancel hle]⟩
  | inr hle => exact .inr ⟨n - m, by rw [← Function.iterate_add_apply, Nat.sub_add_cancel hle]⟩

/-- A place in the input is known from its location. -/
theorem eq_of_location (hd : c.Follows d) (he : c.Follows e) (h : d.location = e.location) :
    d = e := by
  cases hd.total he with
  | inl hde => exact hde.eq_or_lt.resolve_right (by simp [h])
  | inr hed => exact (hed.eq_or_lt.resolve_right (by simp [h])).symm

end Follows

end Cursor

end Source

end FirSyntax
