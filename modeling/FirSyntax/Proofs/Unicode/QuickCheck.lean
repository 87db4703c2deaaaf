import FirSyntax.Proofs.Unicode.CanonicalOrder
import FirSyntax.Proofs.Unicode.Words

/-!
# The quick check

A text of starters for which the quick check says yes is in normal form. Each of them decomposes to
a block that begins with a starter, so that blocks are ordered apart, and that no composition
begins to take in from outside, so that each block is composed to its code point again.
-/
namespace FirSyntax.Unicode.CharData

variable {U : CharData} {c d : Char} {cs ds : List Char}

/-- What is required of the tables for the quick check to be right. -/
structure ChecksQuickly (U : CharData) : Prop where
  /-- ASCII consists of such starters. -/
  ascii : ∀ {c : Char}, c.toNat < 0x80 → U.isStarter c = true ∧ U.quickCheck c = true
  /-- The code point is composed again from its decomposition. -/
  recomposes : ∀ {c}, U.isStarter c = true → U.quickCheck c = true → U.normalize [c] = [c]
  /-- The first code point of the decomposition is not the second one of a composition. -/
  apart : ∀ {c}, U.isStarter c = true → U.quickCheck c = true →
    ∀ d ∈ (U.expand c).head?, ∀ a, U.composePair? a d = none

theorem ChecksQuickly.of_certain (hU : U.ChecksQuickly) (h : U.isCertainlyNormal c = true) :
    U.isStarter c = true ∧ U.quickCheck c = true := by
  simp only [isCertainlyNormal, Bool.or_eq_true, decide_eq_true_eq, Bool.and_eq_true] at h
  cases h with
  | inl hascii => exact hU.ascii hascii
  | inr hchecked => exact hchecked

namespace Composing

variable {s : Composing} {a e : Char}

/-! ## What a composition leaves alone -/

/-- The composition with more finished before it. -/
def above (s : Composing) (ds : List Char) : Composing := { s with done := s.done ++ ds }

theorem kept_above (s : Composing) (ds : List Char) : (s.above ds).kept = s.kept ++ ds := by
  simp [above, kept]

/-- What is finished takes no part in a step. -/
theorem push_above (s : Composing) (ds : List Char) (c : Char) :
    (s.above ds).push U c = (s.push U c).above ds := by
  have habsorb : (s.above ds).absorb? U c = s.absorb? U c := rfl
  rw [push, push, habsorb]
  cases s.absorb? U c with
  | some d => rfl
  | none =>
    simp only [keep, kept_above]
    split <;> rfl

theorem foldl_above (s : Composing) (ds cs : List Char) :
    cs.foldl (Composing.push U) (s.above ds) = (cs.foldl (Composing.push U) s).above ds := by
  induction cs generalizing s with
  | nil => rfl
  | cons c cs ih => rw [List.foldl_cons, push_above, ih, List.foldl_cons]

/-- A starter that nothing takes in begins afresh. -/
theorem push_of_apart (hd : U.isStarter d = true) (hapart : ∀ a, U.composePair? a d = none)
    (s : Composing) : s.push U d = above ⟨[], some d, []⟩ s.kept := by
  have habsorb : s.absorb? U d = none := by
    rw [absorb?]
    split
    · rfl
    · cases s.starter with
      | none => rfl
      | some a => exact hapart a
  rw [push, habsorb]
  simp [keep, hd, above]

theorem kept_of_apart
    (h : ∀ d ∈ ds, U.isStarter d = true ∧ ∀ a, U.composePair? a d = none) (s : Composing) :
    (ds.foldl (Composing.push U) s).kept = ds.reverse ++ s.kept := by
  induction ds generalizing s with
  | nil => rfl
  | cons d ds ih =>
    rw [List.forall_mem_cons] at h
    rw [List.foldl_cons, push_of_apart h.1.1 h.1.2, foldl_above, kept_above, ih h.2]
    simp [kept]

/-- A text that begins with a mark keeps that mark in front. -/
def FirstIs (s : Composing) (e : Char) : Prop :=
  s.done.getLast? = some e ∨ s.starter = none ∧ s.kept.getLast? = some e

theorem FirstIs.getLast? (h : s.FirstIs e) : s.kept.getLast? = some e := by
  cases h with
  | inl hdone => simp [kept, hdone]
  | inr hmarks => exact hmarks.2

theorem FirstIs.push (h : s.FirstIs e) (c : Char) : (s.push U c).FirstIs e := by
  have hkept := h.getLast?
  rw [Composing.push]
  cases habsorb : s.absorb? U c with
  | some d =>
    cases h with
    | inl hdone => exact .inl hdone
    | inr hmarks => simp [absorb?, hmarks.1] at habsorb
  | none =>
    simp only [keep]
    split
    · exact .inl hkept
    · cases h with
      | inl hdone => exact .inl hdone
      | inr hmarks =>
        refine .inr ⟨hmarks.1, ?_⟩
        rw [show kept { s with marks := c :: s.marks } = c :: s.kept by simp [kept]]
        rw [List.getLast?_cons, hmarks.2]
        rfl

theorem FirstIs.foldl (h : s.FirstIs e) (cs : List Char) :
    (cs.foldl (Composing.push U) s).FirstIs e := by
  induction cs generalizing s with
  | nil => exact h
  | cons c cs ih => exact ih (h.push c)

end Composing

/-! ## The block of a code point -/

theorem exists_mark_insertMark (hd : U.isStarter d = false) (cs : List Char) :
    ∃ e es, U.insertMark d cs = e :: es ∧ U.isStarter e = false := by
  cases cs with
  | nil => exact ⟨d, [], rfl, hd⟩
  | cons f fs =>
    by_cases hmove : 0 < U.combiningClass f ∧ U.combiningClass f < U.combiningClass d
    · rw [insertMark_cons_of_lt hmove.1 hmove.2]
      exact ⟨f, _, rfl, by simpa [isStarter] using Nat.ne_of_gt hmove.1⟩
    · rw [insertMark_cons_of_mayFollow (by rw [MayFollow]; omega)]
      exact ⟨d, _, rfl, hd⟩

/-- What begins with a mark is not composed to a text that begins with a starter. -/
theorem head_compose_of_mark (he : U.isStarter e = false) (cs : List Char) :
    (U.compose (e :: cs)).head? = some e := by
  have hpush : Composing.push U ⟨[], none, []⟩ e = ⟨[], none, [e]⟩ := by
    simp [Composing.push, Composing.absorb?, Composing.keep, he]
  have hfirst : Composing.FirstIs ⟨[], none, [e]⟩ e := .inr ⟨rfl, rfl⟩
  rw [compose, List.foldl_cons, hpush, List.head?_reverse]
  exact (hfirst.foldl cs).getLast?

theorem decompose_singleton (c : Char) : U.decompose [c] = U.canonicalOrder (U.expand c) := by
  rw [decompose, List.flatMap_singleton]

/-- A starter that is composed from its decomposition again decomposes to a starter and what follows
it. -/
theorem exists_starter_expand (hc : U.isStarter c = true) (h : U.normalize [c] = [c]) :
    ∃ d ds, U.expand c = d :: ds ∧ U.isStarter d = true := by
  rw [normalize, decompose_singleton] at h
  cases hexpand : U.expand c with
  | nil =>
    rw [hexpand] at h
    cases h
  | cons d ds =>
    refine ⟨d, ds, rfl, ?_⟩
    cases hd : U.isStarter d with
    | true => rfl
    | false =>
      obtain ⟨e, es, horder, he⟩ := exists_mark_insertMark hd (U.canonicalOrder ds)
      rw [hexpand, canonicalOrder_cons, horder] at h
      have hhead := head_compose_of_mark he es
      rw [h, List.head?_cons, Option.some.injEq] at hhead
      rw [← hhead, hc] at he
      cases he

/-- Blocks that begin with starters are ordered apart. -/
theorem decompose_cons (hstarter : ∀ e ∈ (cs.flatMap U.expand).head?, U.isStarter e = true) :
    U.decompose (c :: cs) = U.decompose [c] ++ U.decompose cs := by
  rw [decompose_singleton, decompose, decompose, List.flatMap_cons]
  cases hcs : cs.flatMap U.expand with
  | nil => simp [canonicalOrder]
  | cons e es =>
    have he : U.combiningClass e = 0 := by
      have h := hstarter e (by rw [hcs]; rfl)
      rwa [isStarter, beq_iff_eq] at h
    rw [canonicalOrder_append_starter he, canonicalOrder_cons, insertMark_starter he]

namespace ChecksQuickly

variable (hU : U.ChecksQuickly)

include hU

theorem exists_block (h : U.isCertainlyNormal c = true) :
    ∃ d ds, U.expand c = d :: ds ∧ U.isStarter d = true ∧ ∀ a, U.composePair? a d = none := by
  obtain ⟨hc, hchecked⟩ := hU.of_certain h
  obtain ⟨d, ds, hexpand, hd⟩ := exists_starter_expand hc (hU.recomposes hc hchecked)
  exact ⟨d, ds, hexpand, hd, hU.apart hc hchecked d (by rw [hexpand]; rfl)⟩

/-- Whatever was composed before it, the block of a code point is composed to that code point. -/
theorem kept_block (h : U.isCertainlyNormal c = true) (s : Composing) :
    ((U.decompose [c]).foldl (Composing.push U) s).kept = c :: s.kept := by
  obtain ⟨hc, hchecked⟩ := hU.of_certain h
  obtain ⟨d, ds, hexpand, hd, hapart⟩ := hU.exists_block h
  have hblock : U.decompose [c] = d :: U.canonicalOrder ds := by
    rw [decompose_singleton, hexpand, canonicalOrder_cons, insertMark_starter (by
      rwa [isStarter, beq_iff_eq] at hd)]
  have hfold (s : Composing) : (U.decompose [c]).foldl (Composing.push U) s =
      ((U.canonicalOrder ds).foldl (Composing.push U) ⟨[], some d, []⟩).above s.kept := by
    rw [hblock, List.foldl_cons, Composing.push_of_apart hd hapart, Composing.foldl_above]
  have hnormal := hU.recomposes hc hchecked
  rw [normalize, compose, hfold, Composing.kept_above, List.reverse_eq_iff] at hnormal
  have hkept : ((U.canonicalOrder ds).foldl (Composing.push U) ⟨[], some d, []⟩).kept = [c] :=
    (List.append_nil _).symm.trans hnormal
  rw [hfold, Composing.kept_above, hkept, List.singleton_append]

theorem kept_decompose (h : ∀ c ∈ cs, U.isCertainlyNormal c = true) (s : Composing) :
    ((U.decompose cs).foldl (Composing.push U) s).kept = cs.reverse ++ s.kept := by
  induction cs generalizing s with
  | nil => rfl
  | cons c cs ih =>
    rw [List.forall_mem_cons] at h
    have hstarter : ∀ e ∈ (cs.flatMap U.expand).head?, U.isStarter e = true := by
      intro e he
      cases cs with
      | nil => cases he
      | cons c' cs =>
        obtain ⟨d, ds, hexpand, hd, -⟩ := hU.exists_block (h.2 c' (by simp))
        rw [List.flatMap_cons, hexpand] at he
        exact (Option.some.inj he) ▸ hd
    rw [decompose_cons hstarter, List.foldl_append, ih h.2, hU.kept_block h.1]
    simp

/-- What is certainly normal is its own normal form. -/
theorem normalize_of_certain (h : ∀ c ∈ cs, U.isCertainlyNormal c = true) :
    U.normalize cs = cs := by
  rw [normalize, compose, hU.kept_decompose h]
  simp [Composing.kept]

end ChecksQuickly

/-- What is required of the tables for identifiers to be the same on their own: besides normal forms
and the quick check, that the byte order mark begins no identifier. -/
structure KeepsIdentifiers (U : CharData) : Prop extends U.KeepsWords, U.ChecksQuickly where
  mark : U.idStart '\uFEFF' = false

/-! ## Full-width letters -/

/-- The letters f and i for their full-width forms. -/
def narrow (c : Char) : Char :=
  if c = '\uFF46' then 'f' else if c = '\uFF49' then 'i' else c

/-- The tables of ASCII and of two full-width letters. -/
def wide : CharData :=
  { ascii with
    decomposition c := [narrow c]
    quickCheck c := decide (c.toNat < 0x80)
    idStart c := narrow c != c
    idContinue c := narrow c != c }

theorem narrow_cases (c : Char) :
    narrow c = c ∨ c = '\uFF46' ∧ narrow c = 'f' ∨ c = '\uFF49' ∧ narrow c = 'i' := by
  rw [narrow]
  split
  · next h => exact .inr (.inl ⟨h, rfl⟩)
  · split
    · next h => exact .inr (.inr ⟨h, rfl⟩)
    · exact .inl rfl

theorem narrow_ascii (h : c.toNat < 0x80) : narrow c = c := by
  rcases narrow_cases c with heq | ⟨rfl, -⟩ | ⟨rfl, -⟩
  · exact heq
  · exact absurd h (by decide)
  · exact absurd h (by decide)

/-- What continues a word of ASCII continues any word. -/
theorem continues_of_ascii (h : ascii.continuesIdentifier c = true) :
    U.continuesIdentifier c = true := by
  simp only [continuesIdentifier, ascii, Bool.and_false, Bool.or_false] at h
  rw [continuesIdentifier, h, Bool.true_or]

theorem begins_of_ascii (h : ascii.beginsIdentifier c = true) : U.beginsIdentifier c = true := by
  simp only [beginsIdentifier, ascii, Bool.and_false, Bool.or_false] at h
  rw [beginsIdentifier, h, Bool.true_or]

theorem continues_narrow (h : wide.continuesIdentifier c = true) :
    ascii.continuesIdentifier (narrow c) = true ∧ Hangul.isSyllable c = false := by
  rcases narrow_cases c with heq | ⟨rfl, heq⟩ | ⟨rfl, heq⟩
  · have hascii : ascii.continuesIdentifier c = true := by
      simp only [continuesIdentifier, wide, heq, bne_self_eq_false, Bool.and_false] at h
      simpa only [continuesIdentifier, ascii, Bool.and_false] using h
    rw [heq]
    exact ⟨hascii, (hangul_of_ascii (toNat_of_continues_ascii hascii)).1⟩
  · rw [heq]
    decide
  · rw [heq]
    decide

theorem begins_narrow (h : wide.beginsIdentifier c = true) :
    ascii.beginsIdentifier (narrow c) = true ∧ Hangul.isSyllable c = false := by
  rcases narrow_cases c with heq | ⟨rfl, heq⟩ | ⟨rfl, heq⟩
  · have hascii : ascii.beginsIdentifier c = true := by
      simp only [beginsIdentifier, wide, heq, bne_self_eq_false, Bool.and_false] at h
      simpa only [beginsIdentifier, ascii, Bool.and_false] using h
    have hcontinues := continues_of_begins_ascii hascii
    rw [heq]
    exact ⟨hascii, (hangul_of_ascii (toNat_of_continues_ascii hcontinues)).1⟩
  · rw [heq]
    decide
  · rw [heq]
    decide

/-- No code point of ASCII is taken in by a starter. -/
theorem composePair?_wide (h : c.toNat < 0x80) (a : Char) : wide.composePair? a c = none := by
  have hvowel : ¬ Hangul.vowelBase ≤ c.toNat := by
    rw [Hangul.vowelBase]
    omega
  have htail : ¬ Hangul.tailBase < c.toNat := by
    rw [Hangul.tailBase]
    omega
  simp [composePair?, Hangul.compose?, Hangul.isVowel, Hangul.isTail, hvowel, htail, wide, ascii]

theorem normalize_wide (h : ∀ c ∈ cs, (narrow c).toNat < 0x80 ∧ Hangul.isSyllable c = false) :
    wide.normalize cs = cs.map narrow := by
  have hexpand : cs.flatMap wide.expand = cs.map narrow := by
    have hsingle : ∀ c ∈ cs, wide.expand c = [narrow c] := by
      intro c hc
      simp [expand, Hangul.decompose?, (h c hc).2, wide]
    rw [List.flatMap_congr hsingle]
    exact List.flatMap_pure_eq_map narrow cs
  have hdecompose : wide.decompose cs = cs.map narrow := by
    rw [decompose, hexpand, canonicalOrder_of_ordered (ordered_of_starters fun _ _ => rfl)]
  have hapart : ∀ d ∈ cs.map narrow, wide.isStarter d = true ∧ ∀ a, wide.composePair? a d = none := by
    rw [List.forall_mem_map]
    exact fun c hc => ⟨rfl, composePair?_wide (h c hc).1⟩
  rw [normalize, hdecompose, compose, Composing.kept_of_apart hapart]
  simp [Composing.kept]

theorem normalize_run_wide (h : wide.IsRun cs) :
    wide.normalize cs = cs.map narrow ∧ ascii.IsRun (cs.map narrow) := by
  obtain ⟨c, ds, rfl, hc, hds⟩ := h
  obtain ⟨hbegins, hsyllable⟩ := begins_narrow hc
  refine ⟨normalize_wide (List.forall_mem_cons.2 ⟨⟨?_, hsyllable⟩, fun d hd => ?_⟩), ?_⟩
  · exact toNat_of_continues_ascii (continues_of_begins_ascii hbegins)
  · obtain ⟨hcontinues, hnot⟩ := continues_narrow (hds d hd)
    exact ⟨toNat_of_continues_ascii hcontinues, hnot⟩
  · refine ⟨narrow c, ds.map narrow, rfl, hbegins, ?_⟩
    rw [List.forall_mem_map]
    exact fun d hd => (continues_narrow (hds d hd)).1

theorem IsRun.of_ascii (h : ascii.IsRun cs) : U.IsRun cs := by
  obtain ⟨c, ds, rfl, hc, hds⟩ := h
  exact ⟨c, ds, rfl, begins_of_ascii hc, fun d hd => continues_of_ascii (hds d hd)⟩

theorem keepsIdentifiers_wide : wide.KeepsIdentifiers where
  blanks c hc _ := by
    have hnarrow : narrow c = c := by
      rcases narrow_cases c with heq | ⟨rfl, -⟩ | ⟨rfl, -⟩
      · exact heq
      · cases hc
      · cases hc
    simp [wide, hnarrow]
  run {cs} h := by
    obtain ⟨heq, hrun⟩ := normalize_run_wide h
    rw [heq]
    exact hrun.of_ascii
  idempotent {cs} h := by
    obtain ⟨heq, hrun⟩ := normalize_run_wide h
    have hfixed : (cs.map narrow).map narrow = cs.map narrow := by
      rw [List.map_map]
      refine List.map_congr_left fun c hc => narrow_ascii ?_
      exact toNat_of_isRun_ascii hrun _ (List.mem_map_of_mem hc)
    rw [heq, (normalize_run_wide hrun.of_ascii).1, hfixed]
  ascii h := ⟨rfl, by simpa [wide] using h⟩
  recomposes {c} _ hc := by
    have hsmall : c.toNat < 0x80 := by simpa [wide] using hc
    rw [normalize_wide (by simpa [narrow_ascii hsmall] using ⟨hsmall, (hangul_of_ascii hsmall).1⟩)]
    simp [narrow_ascii hsmall]
  apart {c} _ hc := by
    have hsmall : c.toNat < 0x80 := by simpa [wide] using hc
    have hexpand : wide.expand c = [c] := by
      simp [expand, Hangul.decompose?, (hangul_of_ascii hsmall).1, wide, narrow_ascii hsmall]
    intro d hd
    rw [hexpand, List.head?_cons, Option.mem_some_iff] at hd
    exact hd ▸ composePair?_wide hsmall
  mark := by decide

end FirSyntax.Unicode.CharData
