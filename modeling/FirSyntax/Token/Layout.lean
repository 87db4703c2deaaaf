import FirSyntax.Token.Basic

/-!
# Layout

The indentation of a line is compared with the widths of the levels that are open. A wider line
opens a level; a narrower one closes levels until its width is reached, and is a mismatch when no
open level has that width. One token is given at a time: after a level is closed, the line is
compared again.
-/
namespace FirSyntax.Token

structure Layout where
  /-- The widths of the open levels, the innermost first. -/
  levels : List Nat
  /-- Whether the indentation of the line is still to be compared. -/
  atLineStart : Bool
deriving DecidableEq, Repr

namespace Layout

/-- The layout before the first line. -/
def start : Layout := ⟨[], true⟩

/-- The width of the innermost level, 0 at the top of the file. -/
def width (l : Layout) : Nat := l.levels.headD 0

/-- The layout token that a line of width `w` calls for, and the layout after it. -/
def shift? (l : Layout) (w : Nat) : Option (Kind × Layout) :=
  if l.width < w then some (.indent, ⟨w :: l.levels, false⟩)
  else if w < l.width then
    if w ≠ 0 ∧ w ∉ l.levels.tail then some (.indentMismatch, ⟨l.levels.tail, false⟩)
    else some (.unindent, ⟨l.levels.tail, true⟩)
  else none

/-- The layout once the line has its level. -/
def settled (l : Layout) : Layout := { l with atLineStart := false }

/-- The number of layout tokens that are still possible without further input. -/
def weight (l : Layout) : Nat := l.levels.length + if l.atLineStart then 2 else 0

theorem weight_shift {l m : Layout} {w : Nat} {k : Kind} (hl : l.atLineStart = true)
    (h : l.shift? w = some (k, m)) : m.weight < l.weight := by
  obtain ⟨levels, start⟩ := l
  simp only at hl
  subst hl
  unfold shift? at h
  split at h
  · cases h
    simp [weight]
  · split at h
    · next hw =>
      cases levels with
      | nil => simp [width] at hw
      | cons top outer =>
        split at h <;> cases h <;> simp [weight]
        omega
    · cases h

theorem kind_of_shift {l m : Layout} {w : Nat} {k : Kind} (h : l.shift? w = some (k, m)) :
    k = .indent ∨ k = .indentMismatch ∨ k = .unindent := by
  unfold shift? at h
  split at h
  · cases h
    simp
  · split at h
    · split at h <;> cases h <;> simp
    · cases h

end Layout

end FirSyntax.Token
