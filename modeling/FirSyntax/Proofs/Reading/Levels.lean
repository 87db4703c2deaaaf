import FirSyntax.Proofs.Reading.Soundness

/-!
# Levels kept by the reader

On tokens that are laid out, the depth of a reading is the number of levels still to be closed.
Recovery leads back to the start of a line of the level that it was asked for, or in front of a
mismatch that closes the level above; a block is left with exactly its own level closed. As long as
nothing is reported, what was read is a derivation.
-/
namespace FirSyntax

open Token Grammar

namespace Reading

/-- The tokens that are left are laid out at the depth of the reading. -/
def LaidAs (cut : Bool) (p : Position) (r : Reading) : Prop :=
  Laid cut p r.depth r.stream.tokens

/-- A reading in front of a line of a level, or of a mismatch that closes the level above it. -/
def AtLevel (depth : Nat) (r : Reading) : Prop :=
  r.depth = depth ∨ r.depth = depth + 1 ∧ r.current.kind = .indentMismatch

variable {cut : Bool} {p : Position} {r r' : Reading} {depth : Nat}

theorem AtLevel.le (h : r.AtLevel depth) : depth ≤ r.depth := by
  rcases h with h | ⟨h, -⟩ <;> omega

@[simp] theorem laidAs_report (l : Location) (c : Cause) :
    (r.report l c).LaidAs cut p ↔ r.LaidAs cut p := by
  simp [LaidAs]

namespace LaidAs

theorem cons (h : r.LaidAs cut p) (hne : r.current.kind ≠ .eof) :
    Laid cut p r.depth (r.current :: r.stream.tokens.tail) := by
  rw [← tokens_eq_cons hne]
  exact h

/-- Only a list without tokens is in front of the end of the file. -/
theorem tokens_of_eof (h : r.LaidAs cut p) (he : r.current.kind = .eof) :
    r.stream.tokens = [] := by
  cases hts : r.stream.tokens with
  | nil => rfl
  | cons t ts =>
    rw [current_of_tokens hts] at he
    exact absurd he (h.ne_eof t (by simp [hts]))

theorem lineStart_of_eof (h : r.LaidAs cut p) (he : r.current.kind = .eof) :
    r.LaidAs cut .lineStart ∧ r.depth = 0 := by
  have hts := h.tokens_of_eof he
  unfold LaidAs at h ⊢
  rw [hts] at h ⊢
  rw [h.depth_of_nil]
  exact ⟨.done, rfl⟩

theorem content (h : r.LaidAs cut p) (hk : r.current.kind.isLayout = false) :
    r.advance.LaidAs cut .inside ∧ r.advance.depth = r.depth := by
  have hne : r.current.kind ≠ .eof := by
    intro he
    simp [he, Kind.isLayout] at hk
  have hdepth : r.advance.depth = r.depth := by
    rw [depth_advance hne, depthAfter_of_content hk]
  refine ⟨?_, hdepth⟩
  unfold LaidAs
  rw [hdepth, tokens_advance hne]
  exact (h.cons hne).of_content hk

theorem newline (h : r.LaidAs cut p) (hk : r.current.kind = .newline) :
    p = .inside ∧ r.advance.LaidAs cut .lineStart ∧ r.advance.depth = r.depth := by
  have hne : r.current.kind ≠ .eof := by simp [hk]
  have hdepth : r.advance.depth = r.depth := by
    rw [depth_advance hne, hk]
    rfl
  obtain ⟨hp, htail⟩ := (h.cons hne).of_newline hk
  refine ⟨hp, ?_, hdepth⟩
  unfold LaidAs
  rwa [hdepth, tokens_advance hne]

theorem indent (h : r.LaidAs cut p) (hk : r.current.kind = .indent) :
    p = .lineStart ∧ r.advance.LaidAs cut .opened ∧ r.advance.depth = r.depth + 1 := by
  have hne : r.current.kind ≠ .eof := by simp [hk]
  have hdepth : r.advance.depth = r.depth + 1 := by
    rw [depth_advance hne, hk]
    rfl
  obtain ⟨hp, htail⟩ := (h.cons hne).of_indent hk
  refine ⟨hp, ?_, hdepth⟩
  unfold LaidAs
  rwa [hdepth, tokens_advance hne]

theorem unindent (h : r.LaidAs cut p) (hk : r.current.kind = .unindent) :
    r.advance.LaidAs cut .lineStart ∧ r.advance.depth + 1 = r.depth := by
  have hne : r.current.kind ≠ .eof := by simp [hk]
  obtain ⟨e, he, htail⟩ := (h.cons hne).of_unindent hk
  have hdepth : r.advance.depth = e := by
    rw [depth_advance hne, hk, he]
    rfl
  refine ⟨?_, by omega⟩
  unfold LaidAs
  rwa [hdepth, tokens_advance hne]

theorem mismatch (h : r.LaidAs cut p) (hk : r.current.kind = .indentMismatch) :
    p = .lineStart ∧ r.advance.LaidAs cut .opened ∧ r.advance.depth + 1 = r.depth := by
  have hne : r.current.kind ≠ .eof := by simp [hk]
  obtain ⟨hp, e, he, htail⟩ := (h.cons hne).of_mismatch hk
  have hdepth : r.advance.depth = e := by
    rw [depth_advance hne, hk, he]
    rfl
  refine ⟨hp, ?_, by omega⟩
  unfold LaidAs
  rwa [hdepth, tokens_advance hne]

/-- The line of a level is not empty, so it does not close the level at once. -/
theorem not_unindent {u : Token} {ts : List Token} (h : r.LaidAs cut .opened)
    (hts : r.stream.tokens = u :: ts) : u.kind ≠ .unindent := by
  unfold LaidAs at h
  rw [hts] at h
  cases h with
  | content hk =>
    intro hu
    simp [hu, Kind.isLayout] at hk

/-- Any other token than those that end a line or close a level. -/
theorem further (h : r.LaidAs cut p) (hne : r.current.kind ≠ .eof)
    (hnewline : r.current.kind ≠ .newline) (hunindent : r.current.kind ≠ .unindent)
    (hmismatch : r.current.kind ≠ .indentMismatch) :
    ∃ q, q ≠ .lineStart ∧ r.advance.LaidAs cut q ∧ r.depth ≤ r.advance.depth := by
  by_cases hindent : r.current.kind = .indent
  · obtain ⟨-, hlaid, hdepth⟩ := h.indent hindent
    exact ⟨_, by simp, hlaid, by omega⟩
  · have hcontent : r.current.kind.isLayout = false := by
      cases hk : r.current.kind <;> simp_all [Kind.isLayout]
    obtain ⟨hlaid, hdepth⟩ := h.content hcontent
    exact ⟨_, by simp, hlaid, by omega⟩

theorem passes {ts : List Token} (h : r.LaidAs cut .inside) (hpass : r.Passes ts r') :
    r'.LaidAs cut .inside := by
  unfold LaidAs at h ⊢
  rw [hpass.tokens] at h
  rw [hpass.depth]
  exact h.append_content hpass.content

/-- Where a level is closed, a line may as well be said to begin. -/
theorem lineStart_of_unindent (h : r.LaidAs cut p) (hk : r.current.kind = .unindent) :
    r.LaidAs cut .lineStart := by
  have hne : r.current.kind ≠ .eof := by simp [hk]
  obtain ⟨e, he, htail⟩ := (h.cons hne).of_unindent hk
  unfold LaidAs
  rw [tokens_eq_cons hne, he]
  exact .unindent hk htail

/-- At the end of a line: its tokens end as the grammar wants, and the next line begins. -/
theorem ends (h : r.LaidAs cut .inside) (hends : r.Ends r') :
    r'.LaidAs cut .lineStart ∧ r'.depth = r.depth ∧ r'.reports = r.reports ∧
      IsEnd r.stream.tokens r'.stream.tokens := by
  obtain ⟨hend, rfl⟩ := hends
  by_cases hnewline : r.current.kind = .newline
  · obtain ⟨-, hlaid, hdepth⟩ := h.newline hnewline
    rw [if_pos hnewline]
    refine ⟨hlaid, hdepth, reports_advance r, ?_⟩
    have hne : r.current.kind ≠ .eof := by simp [hnewline]
    rw [tokens_advance hne, tokens_eq_cons hne]
    exact .newline hnewline
  · rw [if_neg hnewline]
    suffices hstart : r.LaidAs cut .lineStart ∧ ∀ t ∈ r.stream.tokens, t.kind = .unindent from
      ⟨hstart.1, rfl, rfl, .closing hstart.2⟩
    by_cases heof : r.current.kind = .eof
    · exact ⟨(h.lineStart_of_eof heof).1, by simp [h.tokens_of_eof heof]⟩
    · have hunindent : r.current.kind = .unindent := by
        unfold atLineEnd at hend
        split at hend <;> simp_all
      refine ⟨h.lineStart_of_unindent hunindent, ?_⟩
      have hcons := h.cons heof
      rw [tokens_eq_cons heof]
      cases hcons with
      | closing _ hall => exact hall
      | content hk => simp [hunindent, Kind.isLayout] at hk
      | newline hk => simp [hunindent] at hk

end LaidAs

/-- Skipping stops at the level that it was asked for, wherever in a line it began. -/
theorem skipLine_laidAs (depth : Nat) (h : r.LaidAs cut p) (hle : depth ≤ r.depth) :
    (r.skipLine depth).LaidAs cut .lineStart ∧ (r.skipLine depth).AtLevel depth := by
  fun_induction skipLine depth r generalizing p with
  | case1 r heof =>
    obtain ⟨hlaid, hdepth⟩ := h.lineStart_of_eof heof
    exact ⟨hlaid, .inl (by omega)⟩
  | case2 r hend hlt hlt' hk hstop =>
    obtain ⟨-, hlaid, hdepth⟩ := h.newline hk
    exact ⟨hlaid, .inl (by omega)⟩
  | case3 r hend hlt hlt' hk hstop ih =>
    obtain ⟨-, hlaid, hdepth⟩ := h.newline hk
    exact ih hlaid (by omega)
  | case4 r hend hlt hlt' hk hstop => exact ⟨h.lineStart_of_unindent hk, .inl (by omega)⟩
  | case5 r hend hlt hlt' hk hstop hdepth => exact ⟨(h.unindent hk).1, .inl hdepth⟩
  | case6 r hend hlt hlt' hk hstop hdepth ih =>
    obtain ⟨hlaid, hdepth⟩ := h.unindent hk
    exact ih hlaid (by omega)
  | case7 r hend hlt hlt' hk hstop =>
    obtain ⟨rfl, -⟩ := h.mismatch hk
    refine ⟨h, ?_⟩
    by_cases heq : r.depth = depth
    · exact .inl heq
    · exact .inr ⟨by omega, hk⟩
  | case8 r hend hlt hlt' hk hstop ih =>
    have hreport : (r.reportExpected (.token .unindent)).LaidAs cut p := by simpa [reportExpected]
    obtain ⟨-, hlaid, hdepth⟩ := hreport.mismatch (by simpa)
    have : (r.reportExpected (.token .unindent)).depth = r.depth := depth_report ..
    exact ih hlaid (by omega)
  | case9 r hend hlt hlt' hnewline hunindent hmismatch ih =>
    obtain ⟨q, -, hlaid, hdepth⟩ := h.further hend (by simpa using hnewline) (by simpa using hunindent)
      (by simpa using hmismatch)
    exact ih hlaid (by omega)

end Reading

end FirSyntax
