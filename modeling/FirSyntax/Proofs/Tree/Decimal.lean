import FirSyntax.Tree.Decimal

/-!
# Decimals read back

The literal of an integer is a row of digits, behind a minus sign when the integer is negative, and
its value is the integer again.
-/
namespace FirSyntax.Decimal

theorem valueOfDigits_repr (n : Nat) : valueOfDigits n.repr.toList = n := by
  rw [Nat.toList_repr]
  exact Nat.ofDigitChars_ten_toDigits

theorem isDigit_of_mem_repr {n : Nat} {c : Char} (h : c ∈ n.repr.toList) : c.isDigit = true := by
  rw [Nat.toList_repr] at h
  exact Nat.isDigit_of_mem_toDigits (by decide) (by decide) h

theorem exists_digit (n : Nat) : ∃ c cs, n.repr.toList = c :: cs ∧ c.isDigit = true := by
  cases h : n.repr.toList with
  | nil => exact absurd (h.symm.trans Nat.toList_repr).symm Nat.toDigits_ne_nil
  | cons c cs => exact ⟨c, cs, rfl, isDigit_of_mem_repr (by rw [h]; exact List.mem_cons_self)⟩

/-- A literal is a digit or a minus sign in front of a digit, and then digits. -/
theorem text_cases (v : Int) :
    ∃ c cs, (text v).toList = c :: cs ∧ (∀ d ∈ cs, d.isDigit = true) ∧
      (c.isDigit = true ∨ c = '-' ∧ ∃ d ds, cs = d :: ds) := by
  cases v with
  | ofNat n =>
    obtain ⟨c, cs, hcs, hc⟩ := exists_digit n
    refine ⟨c, cs, hcs, fun d hd => ?_, .inl hc⟩
    exact isDigit_of_mem_repr (hcs ▸ List.mem_cons_of_mem c hd)
  | negSucc n =>
    obtain ⟨c, cs, hcs, hc⟩ := exists_digit (n + 1)
    refine ⟨'-', c :: cs, ?_, fun d hd => ?_, .inr ⟨rfl, c, cs, rfl⟩⟩
    · rw [text, String.toList_append, hcs]
      rfl
    · exact isDigit_of_mem_repr (hcs ▸ hd)

theorem value_text (v : Int) : value (text v) = v := by
  cases v with
  | ofNat n =>
    obtain ⟨c, cs, hcs, hc⟩ := exists_digit n
    have hvalue := valueOfDigits_repr n
    rw [value, text, hcs]
    split
    · next heq =>
      rw [(List.cons.inj heq).1] at hc
      exact absurd hc (by decide)
    · next heq =>
      rw [(List.cons.inj heq).1] at hc
      exact absurd hc (by decide)
    · rw [← hcs, hvalue]
      rfl
  | negSucc n =>
    have hvalue := valueOfDigits_repr (n + 1)
    rw [value, text, String.toList_append]
    show -((valueOfDigits (n + 1).repr.toList : Nat) : Int) = _
    rw [hvalue]
    rfl

end FirSyntax.Decimal
