import FirSyntax.Proofs.Unicode.Composition

/-!
# Normalization is correct

The normal form of a text decomposes to what the text decomposes to, nothing in it can be composed
any more, and it is its own normal form. Hangul syllables are taken apart and put together by
arithmetic, whatever the tables say.
-/
namespace FirSyntax.Unicode.CharData

variable {U : CharData} {a b c : Char} {cs : List Char}

theorem decompose_of_fixed (h : ∀ c ∈ cs, U.expand c = [c]) :
    U.decompose cs = U.canonicalOrder cs := by
  rw [decompose, List.flatMap_congr h, List.flatMap_singleton']

theorem sound_decompose (hU : U.Composable) (cs : List Char) :
    Composing.Sound U ⟨[], none, []⟩ (U.decompose cs) :=
  Composing.sound_start (fun _ hd => hU.expand_of_mem_decompose hd) (ordered_canonicalOrder _)

theorem decompose_normalize (hU : U.Composable) (cs : List Char) :
    U.decompose (U.normalize cs) = U.decompose cs := by
  have hfold := ((sound_decompose hU cs).foldl hU).2
  calc U.decompose (U.normalize cs)
      = U.canonicalOrder (Composing.expansion U ⟨[], none, []⟩ (U.decompose cs)) := by
        rw [← hfold, Composing.expansion, List.append_nil]
        rfl
    _ = U.canonicalOrder (U.decompose cs) := rfl
    _ = U.decompose cs := canonicalOrder_of_ordered (ordered_canonicalOrder _)

theorem irreducible_normalize (hU : U.Composable) (cs : List Char) :
    U.Irreducible (U.normalize cs) :=
  ((sound_decompose hU cs).foldl hU).1.irreducible

theorem normalize_normalize (hU : U.Composable) (cs : List Char) :
    U.normalize (U.normalize cs) = U.normalize cs := by
  rw [normalize, decompose_normalize hU, normalize]

/-! ## Hangul -/

theorem push_starter (h : U.combiningClass c = 0) :
    Composing.push U ⟨[], none, []⟩ c = ⟨[], some c, []⟩ := by
  simp [Composing.push, Composing.absorb?, Composing.blocks, Composing.keep, isStarter, h,
    Composing.kept]

theorem push_composite (h : U.composePair? a b = some c) :
    Composing.push U ⟨[], some a, []⟩ b = ⟨[], some c, []⟩ := by
  simp [Composing.push, Composing.absorb?, Composing.blocks, h]

theorem composePair?_hangul (h : Hangul.isLead a = true ∨ Hangul.isSyllable a = true) :
    U.composePair? a b = Hangul.compose? a b := by
  rw [composePair?, if_pos (by simpa using h)]

/-- The jamo of a syllable are composed to it again, one after the other. -/
theorem compose_spell (hU : U.Composable) {i j t : Nat} (hi : i < Hangul.leadCount)
    (hj : j < Hangul.vowelCount) (ht : t < Hangul.tailCount) :
    U.compose (Hangul.spell i j t) = [Char.ofNat (Hangul.number i j t)] := by
  have hlead := Hangul.toNat_ofNat_lead hi
  have hvowel := Hangul.toNat_ofNat_vowel hj
  have hpair := Hangul.toNat_ofNat_number hi hj (t := 0) (by decide)
  have hislead := Hangul.isLead_iff.2 ⟨i, hi, hlead⟩
  have hfirst := push_starter (hU.jamo (.inl hislead)).1
  have hsecond := push_composite (U := U)
    ((composePair?_hangul (.inl hislead)).trans (Hangul.compose?_of_lead hi hlead hj hvowel))
  by_cases hzero : t = 0
  · subst hzero
    simp [compose, Hangul.spell, hfirst, hsecond, Composing.kept]
  · have hthird := push_composite (U := U)
      ((composePair?_hangul (.inr (Hangul.isSyllable_of_toNat hi hj (by decide) hpair))).trans
        (Hangul.compose?_of_syllable hi hj hpair ht (Nat.pos_of_ne_zero hzero)
          (Hangul.toNat_ofNat_tail ht)))
    simp [compose, Hangul.spell, hzero, hfirst, hsecond, hthird, Composing.kept]

theorem normalize_jamo (hU : U.Composable) (hc : Hangul.isSyllable c = true) :
    ∃ jamo, Hangul.decompose? c = some jamo ∧ U.decompose [c] = jamo ∧ U.normalize jamo = [c] := by
  obtain ⟨i, hi, j, hj, t, ht, hnumber⟩ := Hangul.isSyllable_iff.1 hc
  have hspell := Hangul.decompose?_of_toNat hi hj ht hnumber
  have hjamo (d : Char) (hd : d ∈ Hangul.spell i j t) : Hangul.IsJamo d :=
    Hangul.isJamo_of_mem_spell hi hj ht hd
  have hordered : U.canonicalOrder (Hangul.spell i j t) = Hangul.spell i j t :=
    canonicalOrder_of_ordered (ordered_of_starters fun d hd => (hU.jamo (hjamo d hd)).1)
  refine ⟨Hangul.spell i j t, hspell, ?_, ?_⟩
  · rw [decompose, List.flatMap_singleton, expand_of_decompose? hspell, hordered]
  · rw [normalize, decompose_of_fixed fun d hd => hU.expand_jamo (hjamo d hd), hordered,
      compose_spell hU hi hj ht, ← hnumber, Char.ofNat_toNat]

/-- Normalization keeps the decomposition of a text and leaves nothing to compose, hence does
nothing to a text it has been applied to; the jamo of a Hangul syllable and the syllable turn into
each other. -/
theorem nfkc_correct (hU : U.Composable) (text : String) :
    U.decompose (U.nfkc text).toList = U.decompose text.toList ∧
      U.Irreducible (U.nfkc text).toList ∧
      U.nfkc (U.nfkc text) = U.nfkc text ∧
      ∀ c, Hangul.isSyllable c = true → ∃ jamo, Hangul.decompose? c = some jamo ∧
        U.decompose [c] = jamo ∧ U.nfkc (String.ofList jamo) = c.toString := by
  simp only [nfkc, String.toList_ofList]
  refine ⟨decompose_normalize hU _, irreducible_normalize hU _, ?_, fun c hc => ?_⟩
  · rw [normalize_normalize hU]
  · obtain ⟨jamo, hspell, hdecompose, hnormalize⟩ := normalize_jamo hU hc
    exact ⟨jamo, hspell, hdecompose, by rw [hnormalize]; rfl⟩

/-- The tables of the letter s with a dot above, a dot below and both. -/
def dotted : CharData where
  combiningClass
    | '\u0307' => 230
    | '\u0323' => 220
    | _ => 0
  decomposition
    | '\u1E61' => ['s', '\u0307']
    | '\u1E63' => ['s', '\u0323']
    | '\u1E69' => ['s', '\u0323', '\u0307']
    | c => [c]
  composite?
    | 's', '\u0307' => some '\u1E61'
    | 's', '\u0323' => some '\u1E63'
    | '\u1E63', '\u0307' => some '\u1E69'
    | _, _ => none
  quickCheck c := c != '\u0307' && c != '\u0323'
  idStart c := c == '\u1E61' || c == '\u1E63' || c == '\u1E69'
  idContinue c := c == '\u0307' || c == '\u0323' || c == '\u1E61' || c == '\u1E63' || c == '\u1E69'

theorem decomposition_dotted (c : Char) :
    dotted.decomposition c = [c] ∨ c = '\u1E61' ∨ c = '\u1E63' ∨ c = '\u1E69' := by
  simp only [dotted]
  split <;> simp

theorem combiningClass_dotted (c : Char) :
    dotted.combiningClass c = 0 ∨ c = '\u0307' ∨ c = '\u0323' := by
  simp only [dotted]
  split <;> simp

theorem composite?_dotted (h : dotted.composite? a b = some c) :
    (a, b, c) = ('s', '\u0307', '\u1E61') ∨ (a, b, c) = ('s', '\u0323', '\u1E63') ∨
      (a, b, c) = ('\u1E63', '\u0307', '\u1E69') := by
  simp only [dotted] at h
  split at h
  · cases h
    exact .inl rfl
  · cases h
    exact .inr (.inl rfl)
  · cases h
    exact .inr (.inr rfl)
  · cases h

theorem composable_dotted : dotted.Composable where
  full {c d} hc hd := by
    rcases decomposition_dotted c with h | rfl | rfl | rfl
    · rw [h, List.mem_singleton] at hd
      exact hd ▸ ⟨h, hc⟩
    all_goals simp only [dotted, List.mem_cons, List.not_mem_nil, or_false] at hd
    · rcases hd with rfl | rfl <;> decide
    · rcases hd with rfl | rfl <;> decide
    · rcases hd with rfl | rfl | rfl <;> decide
  syllable {c} hc := by
    rcases combiningClass_dotted c with h | rfl | rfl
    · exact h
    · cases hc
    · cases hc
  jamo {c} hc := by
    constructor
    · rcases combiningClass_dotted c with h | rfl | rfl
      · exact h
      all_goals revert hc; decide
    · rcases decomposition_dotted c with h | rfl | rfl | rfl
      · exact h
      all_goals revert hc; decide
  composite {a b c} _ _ _ h := by
    rcases composite?_dotted h with h | h | h
    all_goals
      simp only [Prod.mk.injEq] at h
      obtain ⟨rfl, rfl, rfl⟩ := h
      refine ⟨by decide, by decide, by decide, by decide, ?_⟩
      simp [Ordered, MayFollow, dotted]

theorem nfkc_correct_dotted :
    dotted.Composable ∧ dotted.nfkc "s\u0307\u0323" = "\u1E69" ∧
      dotted.decompose (dotted.nfkc "s\u0307\u0323").toList = ['s', '\u0323', '\u0307'] ∧
      dotted.Irreducible (dotted.nfkc "s\u0307\u0323").toList ∧
      dotted.nfkc (dotted.nfkc "s\u0307\u0323") = dotted.nfkc "s\u0307\u0323" := by
  have hdecompose : dotted.decompose "s\u0307\u0323".toList = ['s', '\u0323', '\u0307'] := by decide
  obtain ⟨hsame, hirreducible, htwice, -⟩ := nfkc_correct composable_dotted "s\u0307\u0323"
  exact ⟨composable_dotted, by decide, hsame.trans hdecompose, hirreducible, htwice⟩

end FirSyntax.Unicode.CharData
