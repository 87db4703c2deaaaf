import FirSyntax.Unicode.Hangul
import Mathlib.Tactic.ByContra

/-!
# Hangul arithmetic

The number of a syllable has three digits: its lead, its vowel and its ending. Decomposition reads
the digits, and composition puts one more of them into the number.
-/
namespace FirSyntax.Unicode.Hangul

variable {a b c : Char}

/-- The consonants and vowels that make up syllables. -/
def IsJamo (c : Char) : Prop := isLead c = true ∨ isVowel c = true ∨ isTail c = true

instance (c : Char) : Decidable (IsJamo c) :=
  inferInstanceAs (Decidable (isLead c = true ∨ isVowel c = true ∨ isTail c = true))

/-- The code point of the syllable with these digits. -/
def number (lead vowel tail : Nat) : Nat :=
  syllableBase + ((lead * vowelCount + vowel) * tailCount + tail)

/-- The jamo for these digits, of which an ending of zero has none. -/
def spell (lead vowel tail : Nat) : List Char :=
  [Char.ofNat (leadBase + lead), Char.ofNat (vowelBase + vowel)] ++
    if tail = 0 then [] else [Char.ofNat (tailBase + tail)]

theorem isLead_iff : isLead c = true ↔ ∃ i < leadCount, c.toNat = leadBase + i := by
  simp only [isLead, Bool.and_eq_true, decide_eq_true_eq]
  constructor
  · rintro ⟨hlow, hhigh⟩
    exact ⟨c.toNat - leadBase, by omega, by omega⟩
  · rintro ⟨i, hi, heq⟩
    omega

theorem isVowel_iff : isVowel c = true ↔ ∃ i < vowelCount, c.toNat = vowelBase + i := by
  simp only [isVowel, Bool.and_eq_true, decide_eq_true_eq]
  constructor
  · rintro ⟨hlow, hhigh⟩
    exact ⟨c.toNat - vowelBase, by omega, by omega⟩
  · rintro ⟨i, hi, heq⟩
    omega

theorem isTail_iff : isTail c = true ↔ ∃ i < tailCount, 0 < i ∧ c.toNat = tailBase + i := by
  simp only [isTail, Bool.and_eq_true, decide_eq_true_eq]
  constructor
  · rintro ⟨hlow, hhigh⟩
    exact ⟨c.toNat - tailBase, by omega, by omega, by omega⟩
  · rintro ⟨i, hi, hpos, heq⟩
    omega

theorem number_lt {i j t : Nat} (hi : i < leadCount) (hj : j < vowelCount) (ht : t < tailCount) :
    number i j t < syllableBase + syllableCount := by
  simp only [number, syllableCount, leadCount, vowelCount, tailCount] at *
  omega

theorem isSyllable_iff :
    isSyllable c = true ↔
      ∃ i < leadCount, ∃ j < vowelCount, ∃ t < tailCount, c.toNat = number i j t := by
  constructor
  · intro h
    have hcount : syllableCount = 11172 := rfl
    simp only [isSyllable, Bool.and_eq_true, decide_eq_true_eq, hcount] at h
    refine ⟨(c.toNat - syllableBase) / 588, ?_, (c.toNat - syllableBase) % 588 / 28, ?_,
      (c.toNat - syllableBase) % 28, ?_, ?_⟩
    all_goals simp only [number, leadCount, vowelCount, tailCount]
    all_goals omega
  · rintro ⟨i, hi, j, hj, t, ht, heq⟩
    have hlt := number_lt hi hj ht
    simp only [isSyllable, heq, Bool.and_eq_true, decide_eq_true_eq]
    exact ⟨Nat.le_add_right _ _, hlt⟩

theorem toNat_ofNat_of_lt {n : Nat} (h : n < 0xD800) : (Char.ofNat n).toNat = n := by
  rw [Char.ofNat, dif_pos (.inl h)]
  rfl

theorem toNat_ofNat_number {i j t : Nat} (hi : i < leadCount) (hj : j < vowelCount)
    (ht : t < tailCount) : (Char.ofNat (number i j t)).toNat = number i j t := by
  have hlt := number_lt hi hj ht
  refine toNat_ofNat_of_lt ?_
  simp only [syllableBase, syllableCount, leadCount, vowelCount, tailCount] at hlt
  omega

theorem toNat_ofNat_lead {i : Nat} (hi : i < leadCount) :
    (Char.ofNat (leadBase + i)).toNat = leadBase + i := by
  refine toNat_ofNat_of_lt ?_
  simp only [leadBase, leadCount] at *
  omega

theorem toNat_ofNat_vowel {j : Nat} (hj : j < vowelCount) :
    (Char.ofNat (vowelBase + j)).toNat = vowelBase + j := by
  refine toNat_ofNat_of_lt ?_
  simp only [vowelBase, vowelCount] at *
  omega

theorem toNat_ofNat_tail {t : Nat} (ht : t < tailCount) :
    (Char.ofNat (tailBase + t)).toNat = tailBase + t := by
  refine toNat_ofNat_of_lt ?_
  simp only [tailBase, tailCount] at *
  omega

theorem isSyllable_of_toNat {i j t : Nat} (hi : i < leadCount) (hj : j < vowelCount)
    (ht : t < tailCount) (hc : c.toNat = number i j t) : isSyllable c = true :=
  isSyllable_iff.2 ⟨i, hi, j, hj, t, ht, hc⟩

theorem decompose?_of_toNat {i j t : Nat} (hi : i < leadCount) (hj : j < vowelCount)
    (ht : t < tailCount) (hc : c.toNat = number i j t) : decompose? c = some (spell i j t) := by
  have hlead : (number i j t - syllableBase) / (vowelCount * tailCount) = i := by
    simp only [number, vowelCount, tailCount] at *
    omega
  have hvowel : (number i j t - syllableBase) % (vowelCount * tailCount) / tailCount = j := by
    simp only [number, vowelCount, tailCount] at *
    omega
  have htail : (number i j t - syllableBase) % tailCount = t := by
    simp only [number, vowelCount, tailCount] at *
    omega
  simp only [decompose?, isSyllable_of_toNat hi hj ht hc, if_true, hc, hlead, hvowel, htail, spell]
  split <;> rfl

theorem decompose?_of_not_isSyllable (h : isSyllable c = false) : decompose? c = none := by
  rw [decompose?, if_neg (by simp [h])]

theorem isSyllable_of_decompose? {cs : List Char} (h : decompose? c = some cs) :
    isSyllable c = true := by
  by_contra hc
  rw [decompose?_of_not_isSyllable (by simpa using hc)] at h
  cases h

theorem not_isSyllable_of_decompose? (h : decompose? c = none) : isSyllable c = false := by
  by_contra hc
  obtain ⟨i, hi, j, hj, t, ht, heq⟩ := isSyllable_iff.1 (by simpa using hc)
  rw [decompose?_of_toNat hi hj ht heq] at h
  cases h

/-! ## Jamo -/

theorem toNat_of_isJamo (h : IsJamo c) : c.toNat < syllableBase := by
  rcases h with h | h | h
  · obtain ⟨i, hi, heq⟩ := isLead_iff.1 h
    simp only [leadCount, leadBase, syllableBase] at *
    omega
  · obtain ⟨i, hi, heq⟩ := isVowel_iff.1 h
    simp only [vowelCount, vowelBase, syllableBase] at *
    omega
  · obtain ⟨i, hi, -, heq⟩ := isTail_iff.1 h
    simp only [tailCount, tailBase, syllableBase] at *
    omega

theorem isSyllable_of_isJamo (h : IsJamo c) : isSyllable c = false := by
  have hlt := toNat_of_isJamo h
  simp [isSyllable]
  omega

theorem not_isLead_of_isSyllable (h : isSyllable c = true) : isLead c = false := by
  cases hlead : isLead c with
  | false => rfl
  | true => simp [isSyllable_of_isJamo (.inl hlead)] at h

theorem isJamo_of_mem_spell {i j t : Nat} (hi : i < leadCount) (hj : j < vowelCount)
    (ht : t < tailCount) (h : c ∈ spell i j t) : IsJamo c := by
  simp only [spell, List.mem_append, List.mem_cons, List.not_mem_nil, or_false] at h
  rcases h with (rfl | rfl) | h
  · exact .inl (isLead_iff.2 ⟨i, hi, toNat_ofNat_lead hi⟩)
  · exact .inr (.inl (isVowel_iff.2 ⟨j, hj, toNat_ofNat_vowel hj⟩))
  · split at h
    · cases h
    · rw [List.mem_singleton] at h
      subst h
      exact .inr (.inr (isTail_iff.2 ⟨t, ht, by omega, toNat_ofNat_tail ht⟩))

theorem isJamo_of_mem_decompose? {cs : List Char} (h : decompose? c = some cs) :
    ∀ d ∈ cs, IsJamo d := by
  obtain ⟨i, hi, j, hj, t, ht, heq⟩ := isSyllable_iff.1 (isSyllable_of_decompose? h)
  rw [decompose?_of_toNat hi hj ht heq, Option.some.injEq] at h
  subst h
  exact fun d hd => isJamo_of_mem_spell hi hj ht hd

/-! ## Composition -/

theorem compose?_of_lead {i j : Nat} (hi : i < leadCount) (ha : a.toNat = leadBase + i)
    (hj : j < vowelCount) (hb : b.toNat = vowelBase + j) :
    compose? a b = some (Char.ofNat (number i j 0)) := by
  rw [compose?, isLead_iff.2 ⟨i, hi, ha⟩, isVowel_iff.2 ⟨j, hj, hb⟩, ha, hb]
  simp [number]

theorem compose?_of_syllable {i j t : Nat} (hi : i < leadCount) (hj : j < vowelCount)
    (ha : a.toNat = number i j 0) (ht : t < tailCount) (hpos : 0 < t)
    (hb : b.toNat = tailBase + t) : compose? a b = some (Char.ofNat (number i j t)) := by
  have hsyllable := isSyllable_of_toNat hi hj (by decide) ha
  have hending : (number i j 0 - syllableBase) % tailCount = 0 := by simp [number]
  rw [compose?, not_isLead_of_isSyllable hsyllable, hsyllable, isTail_iff.2 ⟨t, ht, hpos, hb⟩, ha,
    hending, hb]
  simp [number, Nat.add_assoc]

/-- A lead and a vowel are the decomposition of their composite. -/
theorem decompose?_of_lead (ha : isLead a = true) (h : compose? a b = some c) :
    isVowel b = true ∧ decompose? c = some [a, b] := by
  have hb : isVowel b = true := by
    by_contra hb
    simp [compose?, hb, isSyllable_of_isJamo (.inl ha)] at h
  obtain ⟨i, hi, hia⟩ := isLead_iff.1 ha
  obtain ⟨j, hj, hjb⟩ := isVowel_iff.1 hb
  rw [compose?_of_lead hi hia hj hjb, Option.some.injEq] at h
  have hc : c.toNat = number i j 0 := h ▸ toNat_ofNat_number hi hj (by decide)
  rw [decompose?_of_toNat hi hj (by decide) hc]
  simp [spell, hb, ← hia, ← hjb]

/-- A syllable and a trailing consonant: the decomposition of the composite has one jamo more. -/
theorem decompose?_of_syllable (ha : isSyllable a = true) (h : compose? a b = some c) :
    isTail b = true ∧ ∃ cs, decompose? a = some cs ∧ decompose? c = some (cs ++ [b]) := by
  obtain ⟨i, hi, j, hj, t, ht, hia⟩ := isSyllable_iff.1 ha
  have hending : (number i j t - syllableBase) % tailCount = t := by
    simp only [number, vowelCount, tailCount] at *
    omega
  obtain ⟨rfl, hb⟩ : t = 0 ∧ isTail b = true := by
    by_contra hne
    have hnone : ((number i j t - syllableBase) % tailCount == 0 && isTail b) = false := by
      rw [hending]
      simpa using hne
    simp [compose?, not_isLead_of_isSyllable ha, ha, hia, hnone] at h
  obtain ⟨k, hk, hpos, hkb⟩ := isTail_iff.1 hb
  rw [compose?_of_syllable hi hj hia hk hpos hkb, Option.some.injEq] at h
  have hc : c.toNat = number i j k := h ▸ toNat_ofNat_number hi hj hk
  refine ⟨hb, _, decompose?_of_toNat hi hj ht hia, ?_⟩
  rw [decompose?_of_toNat hi hj hk hc]
  simp [spell, Nat.ne_of_gt hpos, ← hkb]

end FirSyntax.Unicode.Hangul
