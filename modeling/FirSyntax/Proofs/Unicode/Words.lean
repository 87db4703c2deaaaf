import FirSyntax.Proofs.Unicode.Blank
import FirSyntax.Unicode.Normalization

/-!
# Words and their normal forms

Words that consist of code points of identifiers, what normalization must keep of them, and the
tables of ASCII, which keep all of it.
-/
namespace FirSyntax.Unicode.CharData

open Source

variable {U : CharData} {c : Char} {cs : List Char}

/-- Code points that make up one word. -/
def IsRun (U : CharData) (cs : List Char) : Prop :=
  ∃ c ds, cs = c :: ds ∧ U.beginsIdentifier c = true ∧ ∀ d ∈ ds, U.continuesIdentifier d = true

/-- A text that the scanner does not normalize further. -/
def IsNormal (U : CharData) (text : String) : Prop :=
  (∀ c ∈ text.toList, U.isCertainlyNormal c = true) ∨ U.nfkc text = text

/-- What is required of the tables: white space is no part of a word, and the normal form of a word is
a word in normal form. -/
structure KeepsWords (U : CharData) : Prop where
  blanks : U.BlanksApart
  run : ∀ {cs}, U.IsRun cs → U.IsRun (U.normalize cs)
  idempotent : ∀ {cs}, U.IsRun cs → U.normalize (U.normalize cs) = U.normalize cs

theorem isRun_of_letters {cs : List Char} (hne : cs ≠ []) (h : ∀ c ∈ cs, c.isAlpha = true) :
    U.IsRun cs := by
  obtain ⟨c, ds, rfl⟩ := List.exists_cons_of_ne_nil hne
  rw [List.forall_mem_cons] at h
  refine ⟨c, ds, rfl, by simp [beginsIdentifier, h.1], fun d hd => ?_⟩
  simp [continuesIdentifier, Char.isAlphanum, h.2 d hd]

theorem isNormal_of_letters {text : String} (h : ∀ c ∈ text.toList, c.isAlpha = true) :
    U.IsNormal text := by
  refine .inl fun c hc => ?_
  have hrange := toNat_of_word (c := c) (by simp [Char.isAlphanum, h c hc])
  simp [isCertainlyNormal, hrange.2]

theorem normalizePieces_chars (offset : Nat) (acc cs : List Char) :
    U.normalizePieces offset acc (cs.map .char) =
      .ok (String.ofList (U.normalize (acc.reverse ++ cs))) := by
  induction cs generalizing offset acc with
  | nil => simp [normalizePieces]
  | cons c cs ih => simp [normalizePieces, ih]

/-- Only code points are normalized. -/
theorem of_normalizePieces {offset : Nat} {acc : List Char} {xs : List Piece} {text : String}
    (h : U.normalizePieces offset acc xs = .ok text) :
    ∃ cs, xs = cs.map .char ∧ text = String.ofList (U.normalize (acc.reverse ++ cs)) := by
  induction xs generalizing offset acc with
  | nil =>
    rw [normalizePieces, Except.ok.injEq] at h
    exact ⟨[], rfl, by simp [h]⟩
  | cons x xs ih =>
    cases x with
    | invalid bs => cases h
    | char c =>
      obtain ⟨cs, rfl, htext⟩ := ih h
      exact ⟨c :: cs, rfl, by simp [htext]⟩

/-! ## ASCII -/

/-- Tables that know the code points of ASCII only. -/
def ascii : CharData where
  combiningClass _ := 0
  decomposition c := [c]
  composite? _ _ := none
  quickCheck _ := true
  idStart _ := false
  idContinue _ := false

theorem toNat_of_continues_ascii (h : ascii.continuesIdentifier c = true) : c.toNat < 0x80 := by
  simp only [continuesIdentifier, ascii, Bool.and_false, Bool.or_false] at h
  exact (toNat_of_word h).2

theorem continues_of_begins_ascii (h : ascii.beginsIdentifier c = true) :
    ascii.continuesIdentifier c = true := by
  simp only [beginsIdentifier, continuesIdentifier, Char.isAlphanum, ascii, Bool.and_false,
    Bool.or_false, Bool.or_eq_true] at h ⊢
  exact h.imp_left .inl

theorem toNat_of_isRun_ascii (h : ascii.IsRun cs) : ∀ c ∈ cs, c.toNat < 0x80 := by
  obtain ⟨c, ds, rfl, hc, hds⟩ := h
  rw [List.forall_mem_cons]
  exact ⟨toNat_of_continues_ascii (continues_of_begins_ascii hc),
    fun d hd => toNat_of_continues_ascii (hds d hd)⟩

/-- Code points of ASCII stand before those of Hangul. -/
theorem hangul_of_ascii (h : c.toNat < 0x80) :
    Hangul.isSyllable c = false ∧ Hangul.isLead c = false := by
  have hsyllable : ¬ Hangul.syllableBase ≤ c.toNat := by
    rw [Hangul.syllableBase]
    omega
  have hlead : ¬ Hangul.leadBase ≤ c.toNat := by
    rw [Hangul.leadBase]
    omega
  simp [Hangul.isSyllable, Hangul.isLead, hsyllable, hlead]

theorem canonicalOrder_ascii (cs : List Char) : ascii.canonicalOrder cs = cs := by
  rw [canonicalOrder]
  induction cs with
  | nil => rfl
  | cons c cs ih =>
    rw [List.foldr_cons, ih]
    cases cs with
    | nil => rfl
    | cons d ds => simp [insertMark, ascii]

theorem decompose_ascii (h : ∀ c ∈ cs, c.toNat < 0x80) : ascii.decompose cs = cs := by
  rw [decompose, canonicalOrder_ascii]
  induction cs with
  | nil => rfl
  | cons c cs ih =>
    rw [List.forall_mem_cons] at h
    have hexpand : ascii.expand c = [c] := by
      simp [expand, Hangul.decompose?, (hangul_of_ascii h.1).1, ascii]
    rw [List.flatMap_cons, ih h.2, hexpand]
    rfl

/-- Nothing is composed, so that every code point is a starter that is kept. -/
theorem compose_ascii (h : ∀ c ∈ cs, c.toNat < 0x80) : ascii.compose cs = cs := by
  have hpush (s : Composing) (c : Char) (hs : ∀ a ∈ s.starter, a.toNat < 0x80) :
      s.push ascii c = ⟨s.kept, some c, []⟩ := by
    have habsorb : s.absorb? ascii c = none := by
      unfold Composing.absorb?
      cases hstarter : s.starter with
      | none => simp
      | some a =>
        obtain ⟨hsyllable, hlead⟩ := hangul_of_ascii (hs a hstarter)
        simp [composePair?, hsyllable, hlead, ascii]
    rw [Composing.push, habsorb]
    rfl
  have hkept (s : Composing) (hs : ∀ a ∈ s.starter, a.toNat < 0x80) :
      (cs.foldl (Composing.push ascii) s).kept = cs.reverse ++ s.kept := by
    induction cs generalizing s with
    | nil => rfl
    | cons c cs ih =>
      rw [List.forall_mem_cons] at h
      rw [List.foldl_cons, hpush s c hs, ih h.2 _ (by simpa using h.1)]
      simp [Composing.kept]
  rw [compose, hkept _ (by simp)]
  simp [Composing.kept]

theorem keepsWords_ascii : ascii.KeepsWords := by
  have hnormal {cs : List Char} (h : ascii.IsRun cs) : ascii.normalize cs = cs := by
    have hsmall := toNat_of_isRun_ascii h
    rw [normalize, decompose_ascii hsmall, compose_ascii hsmall]
  refine ⟨fun c _ _ => ⟨rfl, rfl⟩, fun h => ?_, fun h => ?_⟩
  · rwa [hnormal h]
  · rw [hnormal h, hnormal h]

end FirSyntax.Unicode.CharData
