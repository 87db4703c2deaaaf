import FirSyntax.Proofs.Unicode.CanonicalOrder
import FirSyntax.Proofs.Unicode.Hangul

/-!
# Canonical composition

A step of composition either keeps a code point or puts it into the last starter. In the second
case the decomposition of what is kept and of what is still to come changes only by moving a mark
in front of marks of smaller class, which canonical ordering does not see. What is kept has no
starter left that a later code point could still be put into.
-/
namespace FirSyntax.Unicode.CharData

variable {U : CharData} {a b c d : Char} {cs ds : List Char}

/-- What composition requires of the tables. -/
structure Composable (U : CharData) : Prop where
  /-- Decompositions are full. -/
  full : ∀ {c d}, Hangul.isSyllable c = false → d ∈ U.decomposition c →
    U.decomposition d = [d] ∧ Hangul.isSyllable d = false
  syllable : ∀ {c}, Hangul.isSyllable c = true → U.combiningClass c = 0
  jamo : ∀ {c}, Hangul.IsJamo c → U.combiningClass c = 0 ∧ U.decomposition c = [c]
  /-- A composite of the tables has class 0, is no syllable and decomposes to the decompositions of
  its two parts, in canonical order. -/
  composite : ∀ {a b c}, U.combiningClass a = 0 → Hangul.isLead a = false →
    Hangul.isSyllable a = false → U.composite? a b = some c →
    U.combiningClass c = 0 ∧ Hangul.isSyllable c = false ∧ U.expand b = [b] ∧
      U.decomposition c = U.decomposition a ++ [b] ∧ U.Ordered (U.decomposition c)

/-- What stands before `c` in `between` cuts `c` off from a starter. -/
def Blocked (U : CharData) (between : List Char) (c : Char) : Prop :=
  ∃ m ∈ between, U.combiningClass m = 0 ∨ U.combiningClass c ≤ U.combiningClass m

/-- No code point can be composed with a starter before it from which it is not cut off. -/
def Irreducible (U : CharData) (cs : List Char) : Prop :=
  ∀ front a between c back, cs = front ++ a :: (between ++ c :: back) →
    U.combiningClass a = 0 → (U.composePair? a c).isSome → U.Blocked between c

/-! ## Decomposition -/

theorem expand_of_not_syllable (h : Hangul.isSyllable c = false) :
    U.expand c = U.decomposition c := by
  rw [expand, Hangul.decompose?_of_not_isSyllable h, Option.getD_none]

theorem expand_of_decompose? (h : Hangul.decompose? c = some cs) : U.expand c = cs := by
  rw [expand, h, Option.getD_some]

namespace Composable

variable (hU : U.Composable)

include hU

theorem expand_jamo (h : Hangul.IsJamo c) : U.expand c = [c] := by
  rw [expand_of_not_syllable (Hangul.isSyllable_of_isJamo h), (hU.jamo h).2]

/-- What a code point decomposes to is not decomposed further. -/
theorem expand_of_mem (h : d ∈ U.expand c) : U.expand d = [d] := by
  cases hc : Hangul.decompose? c with
  | some ds =>
    rw [expand_of_decompose? hc] at h
    exact hU.expand_jamo (Hangul.isJamo_of_mem_decompose? hc d h)
  | none =>
    have hsyllable := Hangul.not_isSyllable_of_decompose? hc
    rw [expand_of_not_syllable hsyllable] at h
    obtain ⟨hfixed, hd⟩ := hU.full hsyllable h
    rw [expand_of_not_syllable hd, hfixed]

theorem expand_of_mem_decompose (h : d ∈ U.decompose cs) : U.expand d = [d] := by
  have hmem : d ∈ cs.flatMap U.expand := (canonicalOrder_perm _).mem_iff.1 h
  obtain ⟨c, -, hd⟩ := List.mem_flatMap.1 hmem
  exact hU.expand_of_mem hd

/-- Whether by arithmetic or by the tables, a composite is a starter that decomposes to what its
parts decompose to. -/
theorem of_composePair? (ha : U.combiningClass a = 0) (h : U.composePair? a b = some c) :
    U.combiningClass c = 0 ∧ U.expand b = [b] ∧ U.expand c = U.expand a ++ [b] ∧
      U.Ordered (U.expand c) := by
  have hhangul {cs : List Char} (hc : Hangul.decompose? c = some cs) :
      U.combiningClass c = 0 ∧ U.Ordered (U.expand c) := by
    rw [expand_of_decompose? hc]
    exact ⟨hU.syllable (Hangul.isSyllable_of_decompose? hc), ordered_of_starters fun d hd =>
      (hU.jamo (Hangul.isJamo_of_mem_decompose? hc d hd)).1⟩
  cases hlead : Hangul.isLead a with
  | true =>
    rw [composePair?, hlead, Bool.true_or, if_pos rfl] at h
    obtain ⟨hb, hc⟩ := Hangul.decompose?_of_lead hlead h
    obtain ⟨hclass, hordered⟩ := hhangul hc
    rw [expand_of_decompose? hc, hU.expand_jamo (.inl hlead)] at *
    exact ⟨hclass, hU.expand_jamo (.inr (.inl hb)), rfl, hordered⟩
  | false =>
    cases hsyllable : Hangul.isSyllable a with
    | true =>
      rw [composePair?, hsyllable, Bool.or_true, if_pos rfl] at h
      obtain ⟨hb, cs, ha', hc⟩ := Hangul.decompose?_of_syllable hsyllable h
      obtain ⟨hclass, hordered⟩ := hhangul hc
      rw [expand_of_decompose? hc, expand_of_decompose? ha'] at *
      exact ⟨hclass, hU.expand_jamo (.inr (.inr hb)), rfl, hordered⟩
    | false =>
      rw [composePair?, hlead, hsyllable, Bool.false_or, if_neg Bool.false_ne_true] at h
      obtain ⟨hclass, hc, hb, heq, hordered⟩ := hU.composite ha hlead hsyllable h
      rw [expand_of_not_syllable hc, expand_of_not_syllable hsyllable]
      exact ⟨hclass, hb, heq, hordered⟩

end Composable

/-! ## Texts that cannot be composed -/

theorem irreducible_nil : U.Irreducible [] := by
  intro front a between c back h
  simp at h

theorem Irreducible.concat (h : U.Irreducible cs)
    (hlast : ∀ front a between, cs = front ++ a :: between → U.combiningClass a = 0 →
      (U.composePair? a c).isSome → U.Blocked between c) :
    U.Irreducible (cs ++ [c]) := by
  intro front a between d back heq ha hpair
  rcases List.eq_nil_or_concat back with rfl | ⟨back, e, rfl⟩
  · obtain ⟨rfl, hcd⟩ : cs = front ++ a :: between ∧ [c] = [d] :=
      List.append_inj' (by simpa using heq) rfl
    rw [List.singleton_inj.1 hcd] at hlast
    exact hlast front a between rfl ha hpair
  · have hsnoc : cs ++ [c] = (front ++ a :: (between ++ d :: back)) ++ [e] := by simpa using heq
    have hcs : cs = front ++ a :: (between ++ d :: back) := (List.append_inj' hsnoc rfl).1
    exact h front a between d back hcs ha hpair

/-- Two ways to single out an element of a text. -/
theorem append_cons_eq_cases {front back : List Char}
    (h : cs ++ c :: ds = front ++ d :: back) :
    (∃ mid, cs = front ++ d :: mid ∧ back = mid ++ c :: ds) ∨
      (cs = front ∧ c = d ∧ ds = back) ∨
      ∃ mid, front = cs ++ c :: mid ∧ ds = mid ++ d :: back := by
  rcases List.append_eq_append_iff.1 h with ⟨mid, rfl, hmid⟩ | ⟨mid, rfl, hmid⟩
  · rcases List.cons_eq_append_iff.1 hmid with ⟨rfl, hcons⟩ | ⟨mid, rfl, rfl⟩
    · rw [List.cons.injEq] at hcons
      exact .inr (.inl ⟨by simp, hcons.1.symm, hcons.2.symm⟩)
    · exact .inr (.inr ⟨mid, rfl, rfl⟩)
  · rcases List.cons_eq_append_iff.1 hmid with ⟨rfl, hcons⟩ | ⟨mid, rfl, rfl⟩
    · rw [List.cons.injEq] at hcons
      exact .inr (.inl ⟨by simp, hcons.1, hcons.2⟩)
    · exact .inl ⟨mid, rfl, rfl⟩

/-- A starter may be replaced by one that no starter before it takes in, if what it could take in
itself is cut off. -/
theorem Irreducible.replace (h : U.Irreducible (cs ++ a :: ds)) (hc : U.combiningClass c = 0)
    (hmarks : ∀ m ∈ ds, U.combiningClass m ≠ 0)
    (hbefore : ∀ p, U.combiningClass p = 0 → U.composePair? p c = none)
    (hafter : ∀ between d back, ds = between ++ d :: back → (U.composePair? c d).isSome →
      U.Blocked between d) :
    U.Irreducible (cs ++ c :: ds) := by
  intro front p between d back heq hp hpair
  rcases append_cons_eq_cases heq with ⟨mid, rfl, hmid⟩ | ⟨rfl, rfl, hds⟩ | ⟨mid, rfl, hmid⟩
  · rcases append_cons_eq_cases hmid.symm with ⟨tail, rfl, rfl⟩ | ⟨rfl, rfl, rfl⟩ | ⟨tail, rfl, rfl⟩
    · exact h front p between d (tail ++ a :: ds) (by simp) hp hpair
    · rw [hbefore p hp] at hpair
      cases hpair
    · exact ⟨c, by simp, .inl hc⟩
  · exact hafter between d back hds hpair
  · exact absurd hp (hmarks p (by simp [hmid]))

/-! ## A composition in progress -/

namespace Composing

variable {s : Composing} {coming : List Char}

/-- What holds of a composition with a text still to come. -/
structure Sound (U : CharData) (s : Composing) (coming : List Char) : Prop where
  starter : ∀ a ∈ s.starter, U.combiningClass a = 0 ∧ U.expand a ≠ []
  /-- Before the first starter there is nothing but marks. -/
  done : s.starter = none → s.done = []
  marks : ∀ m ∈ s.marks, U.combiningClass m ≠ 0 ∧ U.expand m = [m]
  fixed : ∀ d ∈ coming, U.expand d = [d]
  ordered : U.Ordered (s.marks.reverse ++ coming)
  irreducible : U.Irreducible s.kept.reverse

theorem kept_reverse (s : Composing) :
    s.kept.reverse = s.done.reverse ++ (s.starter.toList ++ s.marks.reverse) := by
  cases hs : s.starter with
  | none => simp [kept, hs]
  | some a => simp [kept, hs]

theorem kept_reverse_of_starter (hs : s.starter = some a) :
    s.kept.reverse = s.done.reverse ++ a :: s.marks.reverse := by
  rw [kept_reverse, hs]
  rfl

/-- The head of the marks has the greatest class, so that it alone decides. -/
theorem Sound.lt_of_not_blocks (h : s.Sound U coming) (hc : s.blocks U c = false) :
    ∀ m ∈ s.marks, U.combiningClass m < U.combiningClass c := by
  have hpairwise : s.marks.Pairwise fun c d => U.combiningClass d ≤ U.combiningClass c := by
    rw [← List.pairwise_reverse]
    exact Ordered.pairwise h.ordered.left_of_append fun m hm => (h.marks m (List.mem_reverse.1 hm)).1
  cases hmarks : s.marks with
  | nil => simp
  | cons d ms =>
    rw [hmarks, List.pairwise_cons] at hpairwise
    have hd : U.combiningClass d < U.combiningClass c := by
      rw [blocks, hmarks] at hc
      simp only [Bool.or_eq_false_iff, decide_eq_false_iff_not, not_le] at hc
      exact hc.2
    rw [List.forall_mem_cons]
    exact ⟨hd, fun m hm => (hpairwise.1 m hm).trans_lt hd⟩

theorem Sound.blocked_of_blocks (hc : s.blocks U c = true) : U.Blocked s.marks c := by
  cases hmarks : s.marks with
  | nil => simp [blocks, hmarks] at hc
  | cons d ms =>
    simp only [blocks, hmarks, isStarter, Bool.or_eq_true, beq_iff_eq, decide_eq_true_eq] at hc
    exact ⟨d, by simp, hc⟩

/-- What is kept behind the last starter is the marks. -/
theorem Sound.of_kept (h : s.Sound U coming) {front between : List Char}
    (heq : s.kept.reverse = front ++ a :: between) (ha : U.combiningClass a = 0) :
    (s.starter = some a ∧ between = s.marks.reverse) ∨ ∃ p ∈ between, U.combiningClass p = 0 := by
  have hmarks : a ∉ s.marks := fun hm => (h.marks a hm).1 ha
  cases hs : s.starter with
  | none =>
    have hkept : s.kept = s.marks := by simp [kept, hs, h.done hs]
    have hmem : a ∈ s.kept.reverse := by
      rw [heq]
      simp
    exact absurd (hkept ▸ List.mem_reverse.1 hmem) hmarks
  | some p =>
    rw [kept_reverse_of_starter hs] at heq
    rcases append_cons_eq_cases heq with ⟨mid, -, rfl⟩ | ⟨-, rfl, rfl⟩ | ⟨mid, -, hmid⟩
    · exact .inr ⟨p, by simp, (h.starter p hs).1⟩
    · exact .inl ⟨rfl, rfl⟩
    · have hmem : a ∈ s.marks.reverse := by
        rw [hmid]
        simp
      exact absurd (List.mem_reverse.1 hmem) hmarks

/-- A code point that is not absorbed is not composed with a starter before it either. -/
theorem Sound.irreducible_keep (h : s.Sound U coming) (hc : s.absorb? U c = none) :
    U.Irreducible (c :: s.kept).reverse := by
  rw [List.reverse_cons]
  apply h.irreducible.concat
  intro front a between heq ha hpair
  rcases h.of_kept heq ha with ⟨hs, rfl⟩ | ⟨p, hp, hzero⟩
  · cases hblocks : s.blocks U c with
    | true =>
      obtain ⟨m, hm, hcut⟩ := Sound.blocked_of_blocks hblocks
      exact ⟨m, List.mem_reverse.2 hm, hcut⟩
    | false =>
      rw [absorb?, hblocks, if_neg Bool.false_ne_true, hs, Option.bind_some] at hc
      rw [hc] at hpair
      cases hpair
  · exact ⟨p, hp, .inl hzero⟩

theorem Sound.keep (h : s.Sound U (c :: coming)) (hc : s.absorb? U c = none) :
    (s.keep U c).Sound U coming := by
  have hkept := h.irreducible_keep hc
  have hfixed := h.fixed
  rw [List.forall_mem_cons] at hfixed
  rw [Composing.keep]
  cases hstarter : U.isStarter c with
  | true =>
    rw [if_pos rfl]
    refine ⟨?_, by simp, by simp, hfixed.2, ?_, by simpa [kept] using hkept⟩
    · rintro a ⟨⟩
      rw [isStarter, beq_iff_eq] at hstarter
      exact ⟨hstarter, by simp [hfixed.1]⟩
    · exact h.ordered.right_of_append.tail
  | false =>
    rw [if_neg Bool.false_ne_true]
    refine ⟨h.starter, h.done, ?_, hfixed.2, by simpa using h.ordered, by simpa [kept] using hkept⟩
    rw [List.forall_mem_cons]
    rw [isStarter, beq_eq_false_iff_ne] at hstarter
    exact ⟨⟨hstarter, hfixed.1⟩, h.marks⟩

/-- What an unblocked code point leaves behind stays in canonical order. -/
theorem Sound.ordered_absorb (h : s.Sound U (c :: coming)) (hc : s.blocks U c = false) :
    U.Ordered (s.marks.reverse ++ coming) := by
  have hlt := h.lt_of_not_blocks hc
  have hcoming : U.Ordered (c :: coming) := h.ordered.right_of_append
  refine List.isChain_append.2 ⟨h.ordered.left_of_append, hcoming.tail, fun m hm d hd => ?_⟩
  have hclass := hlt m (List.mem_reverse.1 (List.mem_of_mem_getLast? hm))
  cases (ordered_cons.1 hcoming).1 d hd with
  | inl hzero => exact .inl hzero
  | inr hle => exact .inr (hclass.le.trans hle)

theorem Sound.absorb (hU : U.Composable) (h : s.Sound U (b :: coming)) (hs : s.starter = some a)
    (hb : s.blocks U b = false) (hpair : U.composePair? a b = some c) :
    Sound U { s with starter := some c } coming := by
  obtain ⟨ha, hne⟩ := h.starter a hs
  obtain ⟨hclass, -, hexpand, hordered⟩ := hU.of_composePair? ha hpair
  refine ⟨?_, by simp, h.marks, (List.forall_mem_cons.1 h.fixed).2, h.ordered_absorb hb, ?_⟩
  · rintro d ⟨⟩
    exact ⟨hclass, by simp [hexpand]⟩
  · have hirreducible := h.irreducible
    rw [kept_reverse_of_starter hs] at hirreducible
    rw [kept_reverse_of_starter rfl]
    refine hirreducible.replace hclass (fun m hm => (h.marks m (List.mem_reverse.1 hm)).1) ?_ ?_
    · -- The composite decomposes to more than itself, so nothing takes it in.
      intro p hp
      cases htaken : U.composePair? p c with
      | none => rfl
      | some d =>
        have hfixed := (hU.of_composePair? hp htaken).2.1
        have hlength := congrArg List.length (hexpand.symm.trans hfixed)
        simp [hne] at hlength
    · -- A mark it takes in would have to follow `b` in canonical order, but has a smaller class.
      intro between m back hmarks hsome
      obtain ⟨d, hd⟩ := Option.isSome_iff_exists.1 hsome
      have hm : m ∈ s.marks := by
        rw [← List.mem_reverse, hmarks]
        simp
      obtain ⟨-, -, hexpand', hordered'⟩ := hU.of_composePair? hclass hd
      rw [hexpand', hexpand, List.append_assoc] at hordered'
      have hfollow : U.MayFollow b m := (List.isChain_cons_cons.1 hordered'.right_of_append).1
      have hlt := h.lt_of_not_blocks hb m hm
      cases hfollow with
      | inl hzero => exact absurd hzero (h.marks m hm).1
      | inr hle => omega

/-- A step as the two things it can do. -/
theorem push_cases (s : Composing) (c : Char) :
    (s.absorb? U c = none ∧ s.push U c = s.keep U c) ∨
      ∃ a d, s.starter = some a ∧ s.blocks U c = false ∧ U.composePair? a c = some d ∧
        s.push U c = { s with starter := some d } := by
  cases habsorb : s.absorb? U c with
  | none => exact .inl ⟨rfl, by rw [push, habsorb]⟩
  | some d =>
    have hpush : s.push U c = { s with starter := some d } := by rw [push, habsorb]
    rw [absorb?] at habsorb
    split at habsorb
    · cases habsorb
    · rename_i hblocks
      obtain ⟨a, hs, hpair⟩ := Option.bind_eq_some_iff.1 habsorb
      exact .inr ⟨a, d, hs, by simpa using hblocks, hpair, hpush⟩

theorem Sound.push (hU : U.Composable) (h : s.Sound U (c :: coming)) :
    (s.push U c).Sound U coming := by
  rcases push_cases (U := U) s c with ⟨hc, hpush⟩ | ⟨a, d, hs, hblocks, hpair, hpush⟩
  · rw [hpush]
    exact h.keep hc
  · rw [hpush]
    exact h.absorb hU hs hblocks hpair

/-- The decomposition of what is kept and still to come, before it is ordered. -/
def expansion (U : CharData) (s : Composing) (coming : List Char) : List Char :=
  s.kept.reverse.flatMap U.expand ++ coming

theorem Sound.expansion_eq (h : s.Sound U coming) (ds : List Char) :
    s.expansion U ds =
      s.done.reverse.flatMap U.expand ++ (s.starter.toList.flatMap U.expand ++
        (s.marks.reverse ++ ds)) := by
  have hmarks : s.marks.reverse.flatMap U.expand = s.marks.reverse := by
    have hfixed : ∀ m ∈ s.marks.reverse, U.expand m = [m] :=
      fun m hm => (h.marks m (List.mem_reverse.1 hm)).2
    rw [List.flatMap_congr hfixed, List.flatMap_singleton']
  rw [expansion, kept_reverse, List.flatMap_append, List.flatMap_append, hmarks]
  simp

theorem kept_keep (s : Composing) (c : Char) : (s.keep U c).kept = c :: s.kept := by
  rw [keep]
  split <;> simp [kept]

theorem Sound.canonicalOrder_push (hU : U.Composable) (h : s.Sound U (c :: coming)) :
    U.canonicalOrder ((s.push U c).expansion U coming) =
      U.canonicalOrder (s.expansion U (c :: coming)) := by
  rcases push_cases (U := U) s c with ⟨hc, hpush⟩ | ⟨a, d, hs, hblocks, hpair, hpush⟩
  · have hfixed := (List.forall_mem_cons.1 h.fixed).1
    rw [hpush, expansion, expansion, kept_keep]
    simp [hfixed]
  · obtain ⟨-, -, hexpand, -⟩ := hU.of_composePair? (h.starter a hs).1 hpair
    have hmarks (m : Char) (hm : m ∈ s.marks.reverse) :
        0 < U.combiningClass m ∧ U.combiningClass m < U.combiningClass c := by
      rw [List.mem_reverse] at hm
      exact ⟨Nat.pos_of_ne_zero (h.marks m hm).1, h.lt_of_not_blocks hblocks m hm⟩
    rw [(h.push hU).expansion_eq, h.expansion_eq, hpush, hs]
    have hswap : U.canonicalOrder ((s.done.reverse.flatMap U.expand ++ U.expand a) ++
          c :: (s.marks.reverse ++ coming)) =
        U.canonicalOrder ((s.done.reverse.flatMap U.expand ++ U.expand a) ++
          (s.marks.reverse ++ c :: coming)) := canonicalOrder_swap hmarks
    simpa [hexpand] using hswap

/-- The invariant is kept to the end of the text, and with it the decomposition. -/
theorem Sound.foldl (hU : U.Composable) (h : s.Sound U coming) :
    (coming.foldl (Composing.push U) s).Sound U [] ∧
      U.canonicalOrder ((coming.foldl (Composing.push U) s).expansion U []) =
        U.canonicalOrder (s.expansion U coming) := by
  induction coming generalizing s with
  | nil => exact ⟨h, rfl⟩
  | cons c coming ih =>
    obtain ⟨hsound, heq⟩ := ih (h.push hU)
    exact ⟨hsound, heq.trans (h.canonicalOrder_push hU)⟩

/-- Composition of a text in canonical order begins with nothing kept. -/
theorem sound_start (hfixed : ∀ d ∈ coming, U.expand d = [d]) (hordered : U.Ordered coming) :
    Sound U ⟨[], none, []⟩ coming :=
  ⟨by simp, fun _ => rfl, by simp, hfixed, hordered, irreducible_nil⟩

end Composing

end FirSyntax.Unicode.CharData
