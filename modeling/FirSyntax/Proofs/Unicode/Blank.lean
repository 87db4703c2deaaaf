import FirSyntax.Source.Blank
import FirSyntax.Unicode.Table

/-!
# Identifiers and white space

White space belongs to no identifier. For the code points of ASCII this is so whatever the tables
say; of the others it is required.
-/
namespace FirSyntax.Unicode

open Source

/-- Letters, digits and the underscore lie between the white space of ASCII and U+0080. -/
theorem toNat_of_word {c : Char} (h : (c.isAlphanum || c == '_') = true) :
    0x30 ≤ c.toNat ∧ c.toNat < 0x80 := by
  delta Char.isAlphanum Char.isAlpha Char.isUpper Char.isLower Char.isDigit at h
  simp only [Bool.or_eq_true, Bool.and_eq_true, decide_eq_true_eq, beq_iff_eq,
    UInt32.le_iff_toNat_le] at h
  rcases h with ((h | h) | h) | rfl
  · simp at h
    omega
  · simp at h
    omega
  · simp at h
    omega
  · exact ⟨by decide, by decide⟩

theorem not_blank_of_range {c : Char} (hlow : 0x21 ≤ c.toNat) (hhigh : c.toNat < 0x85) :
    isBlank c = false := by
  simp [isBlank]
  omega

namespace CharData

variable {U : CharData} {c : Char}

/-- White space beyond ASCII is neither XID_Start nor XID_Continue. -/
def BlanksApart (U : CharData) : Prop :=
  ∀ c : Char, isBlank c = true → 0x80 ≤ c.toNat → U.idStart c = false ∧ U.idContinue c = false

theorem not_word_of_blank (hc : isBlank c = true) : (c.isAlphanum || c == '_') = false := by
  cases hword : c.isAlphanum || c == '_' with
  | false => rfl
  | true =>
    have hrange := toNat_of_word hword
    rw [not_blank_of_range (by omega) (by omega)] at hc
    cases hc

theorem BlanksApart.continuesIdentifier (hU : U.BlanksApart) (hc : isBlank c = true) :
    U.continuesIdentifier c = false := by
  rw [CharData.continuesIdentifier, not_word_of_blank hc, Bool.false_or]
  by_cases h : 0x80 ≤ c.toNat
  · rw [(hU c hc h).2, Bool.and_false]
  · simp [h]

theorem BlanksApart.beginsIdentifier (hU : U.BlanksApart) (hc : isBlank c = true) :
    U.beginsIdentifier c = false := by
  have hword := not_word_of_blank hc
  simp only [Char.isAlphanum, Bool.or_eq_false_iff] at hword
  rw [CharData.beginsIdentifier, hword.1.1, hword.2, Bool.false_or, Bool.false_or]
  by_cases h : 0x80 ≤ c.toNat
  · rw [(hU c hc h).1, Bool.and_false]
  · simp [h]

/-- The white space beyond ASCII. -/
def blanks : List Nat :=
  [0x85, 0xA0, 0x1680, 0x2000, 0x2001, 0x2002, 0x2003, 0x2004, 0x2005, 0x2006, 0x2007, 0x2008,
    0x2009, 0x200A, 0x2028, 0x2029, 0x202F, 0x205F, 0x3000]

theorem mem_blanks (hc : isBlank c = true) (h : 0x80 ≤ c.toNat) : c.toNat ∈ blanks := by
  simp only [isBlank, Bool.or_eq_true, Bool.and_eq_true, decide_eq_true_eq, beq_iff_eq] at hc
  simp only [blanks, List.mem_cons, List.not_mem_nil, or_false]
  omega

theorem blanksApart_standard : standard.BlanksApart := by
  intro c hc h
  have hmem := mem_blanks hc h
  have hall : ∀ n ∈ blanks, standard.idStart (Char.ofNat n) = false ∧
      standard.idContinue (Char.ofNat n) = false := by decide +kernel
  simpa using hall _ hmem

end CharData

end FirSyntax.Unicode
