import FirSyntax.Token.Layout
import Mathlib.Logic.Basic

/-!
# One step of the layout

What the width of a line asks for, in the four ways in which it may relate to the open levels, and
read the other way round: what a token of layout says of the width and of the levels.
-/
namespace FirSyntax.Token.Layout

variable {l m : Layout} {w : Nat} {k : Kind}

theorem shift_deeper (h : l.width < w) : l.shift? w = some (.indent, ⟨w :: l.levels, false⟩) :=
  if_pos h

theorem shift_level (h : w = l.width) : l.shift? w = none := by
  rw [shift?, h, if_neg (Nat.lt_irrefl _), if_neg (Nat.lt_irrefl _)]

theorem shift_between (h : w < l.width) (hw : w ≠ 0 ∧ w ∉ l.levels.tail) :
    l.shift? w = some (.indentMismatch, ⟨l.levels.tail, false⟩) := by
  rw [shift?, if_neg (Nat.lt_asymm h), if_pos h, if_pos hw]

theorem shift_back (h : w < l.width) (hw : w = 0 ∨ w ∈ l.levels.tail) :
    l.shift? w = some (.unindent, ⟨l.levels.tail, true⟩) := by
  have hopen : ¬ (w ≠ 0 ∧ w ∉ l.levels.tail) := by
    rwa [← not_or, not_not]
  rw [shift?, if_neg (Nat.lt_asymm h), if_pos h, if_neg hopen]

/-- What a line of another level does to the levels that are open, and of which lines this holds. -/
theorem shift_cases (h : l.shift? w = some (k, m)) :
    (k = .indent ∧ l.width < w ∧ m = ⟨w :: l.levels, false⟩) ∨
      ∃ top outer, l.levels = top :: outer ∧ w < top ∧
        ((k = .indentMismatch ∧ (w ≠ 0 ∧ w ∉ outer) ∧ m = ⟨outer, false⟩) ∨
          (k = .unindent ∧ (w = 0 ∨ w ∈ outer) ∧ m = ⟨outer, true⟩)) := by
  rcases Nat.lt_trichotomy w l.width with hnarrow | hlevel | hwide
  · obtain ⟨levels, start⟩ := l
    cases levels with
    | nil => exact absurd hnarrow (Nat.not_lt_zero w)
    | cons top outer =>
      refine .inr ⟨top, outer, rfl, hnarrow, ?_⟩
      by_cases hbetween : w ≠ 0 ∧ w ∉ outer
      · rw [shift_between hnarrow hbetween] at h
        cases h
        exact .inl ⟨rfl, hbetween, rfl⟩
      · rw [not_and_or, not_not, not_not] at hbetween
        rw [shift_back hnarrow hbetween] at h
        cases h
        exact .inr ⟨rfl, hbetween, rfl⟩
  · rw [shift_level hlevel] at h
    cases h
  · rw [shift_deeper hwide] at h
    cases h
    exact .inl ⟨rfl, hwide, rfl⟩

/-- A line that mismatches has the width of no open level. -/
theorem unreached_of_mismatch (h : l.shift? w = some (.indentMismatch, m)) :
    w ≠ 0 ∧ w ∉ l.levels := by
  obtain ⟨hkind, -⟩ | ⟨top, outer, hlevels, hnarrow, ⟨-, hbetween, -⟩ | ⟨hkind, -⟩⟩ := shift_cases h
  · cases hkind
  · refine ⟨hbetween.1, ?_⟩
    rw [hlevels, List.mem_cons, not_or]
    exact ⟨Nat.ne_of_lt hnarrow, hbetween.2⟩
  · cases hkind

end FirSyntax.Token.Layout
