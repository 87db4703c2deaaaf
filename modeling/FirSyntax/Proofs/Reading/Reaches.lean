import FirSyntax.Proofs.Token.Levels
import FirSyntax.Reading.Basic

/-!
# What a reading does

Whatever the reader recognizes or passes over, it consumes tokens and reports. A diagnostic is at
the token in front, or at one consumed since something was last reported, so it never goes back
behind an earlier diagnostic.
-/
namespace FirSyntax

open Token

namespace Reading

theorem tokens_eq_cons {r : Reading} (h : r.current.kind ≠ .eof) :
    r.stream.tokens = r.current :: r.stream.tokens.tail := by
  obtain ⟨⟨tokens, ending⟩, previous, depth, reports, errorCount⟩ := r
  cases tokens with
  | nil => exact absurd rfl h
  | cons t ts => rfl

theorem current_of_tokens {r : Reading} {t : Token} {ts : List Token}
    (h : r.stream.tokens = t :: ts) : r.current = t := by
  simp [current, Stream.head, h]

theorem current_of_nil {r : Reading} (h : r.stream.tokens = []) :
    r.current = bare .eof r.stream.ending := by
  simp [current, Stream.head, h]

/-- The token in front is the first one of those consumed later, or the one in front then. -/
theorem current_of_append {r s : Reading} {ts : List Token}
    (htokens : r.stream.tokens = ts ++ s.stream.tokens) (hending : s.stream.ending = r.stream.ending) :
    r.current = ts.headD s.current := by
  cases ts with
  | nil => rw [current, current, Stream.head, Stream.head, htokens, hending, List.nil_append,
      List.headD_nil]
  | cons t ts => exact current_of_tokens htokens

/-- At the end of the file no token is left. -/
theorem tokens_of_end {r : Reading} {whole : List Token} (h : r.stream.tokens <:+ whole)
    (hwhole : ∀ t ∈ whole, t.kind ≠ .eof) (hend : r.current.kind = .eof) : r.stream.tokens = [] := by
  cases htokens : r.stream.tokens with
  | nil => rfl
  | cons t ts =>
    rw [htokens] at h
    rw [current_of_tokens htokens] at hend
    exact absurd hend (hwhole t (h.mem List.mem_cons_self))

theorem tokens_advance_suffix (r : Reading) : r.advance.stream.tokens <:+ r.stream.tokens := by
  unfold advance
  split
  · exact List.suffix_refl _
  · exact List.tail_suffix _

theorem advance_eq {r : Reading} (h : r.current.kind ≠ .eof) :
    r.advance = { r with stream := r.stream.tail, previous := r.current.kind,
                         depth := depthAfter r.depth r.current.kind } :=
  if_neg h

theorem tokens_advance {r : Reading} (h : r.current.kind ≠ .eof) :
    r.advance.stream.tokens = r.stream.tokens.tail := by
  rw [advance_eq h]
  rfl

theorem depth_advance {r : Reading} (h : r.current.kind ≠ .eof) :
    r.advance.depth = depthAfter r.depth r.current.kind := by
  rw [advance_eq h]

theorem previous_advance {r : Reading} (h : r.current.kind ≠ .eof) :
    r.advance.previous = r.current.kind := by
  rw [advance_eq h]

@[simp] theorem reports_advance (r : Reading) : r.advance.reports = r.reports := by
  unfold advance
  split <;> rfl

@[simp] theorem depth_report (r : Reading) (l : Location) (c : Cause) :
    (r.report l c).depth = r.depth := by
  unfold report
  split <;> rfl

@[simp] theorem previous_report (r : Reading) (l : Location) (c : Cause) :
    (r.report l c).previous = r.previous := by
  unfold report
  split <;> rfl

/-- Diagnostics are only added. -/
theorem reports_suffix_report (r : Reading) (l : Location) (c : Cause) :
    r.reports <:+ (r.report l c).reports := by
  unfold report
  split
  · exact List.suffix_refl _
  · exact List.suffix_cons _ _

/-- Where something is reported there is a diagnostic, whether it is this one or an earlier one. -/
theorem exists_mem_report (r : Reading) (l : Location) (c : Cause) :
    ∃ d ∈ (r.report l c).reports, d.location = l := by
  unfold report
  split
  · next h =>
    obtain ⟨d, hd, hlocation⟩ := Option.map_eq_some_iff.mp h
    exact ⟨d, List.mem_of_mem_head? hd, hlocation⟩
  · exact ⟨_, List.mem_cons_self, rfl⟩

theorem reports_report_ne_nil (r : Reading) (l : Location) (c : Cause) :
    (r.report l c).reports ≠ [] := by
  obtain ⟨d, hd, -⟩ := exists_mem_report r l c
  exact List.ne_nil_of_mem hd

theorem mem_report {r : Reading} {l : Location} {c : Cause} {d : Diagnostic}
    (h : d ∈ (r.report l c).reports) : d ∈ r.reports ∨ d.location = l := by
  unfold report at h
  split at h
  · exact .inl h
  · rcases List.mem_cons.mp h with rfl | h
    · exact .inr rfl
    · exact .inl h

theorem depthAfter_of_content {d : Nat} {k : Kind} (h : k.isLayout = false) :
    depthAfter d k = d := by
  cases k <;> first | rfl | cases h

/-- `s` is reached from `r` by consuming tokens of certain kinds and by reporting. Since `t`, where
the token of a diagnostic was in front, nothing else has been reported. -/
inductive Reaches (P : Kind → Prop) : Reading → Reading → Prop where
  | refl (r) : Reaches P r r
  | advance {r s} : Reaches P r s → P s.current.kind → Reaches P r s.advance
  | report {r t s} (c : Cause) : Reaches P r t → Reaches P t s → s.reports = t.reports →
      Reaches P r (s.report t.current.location c)

namespace Reaches

variable {P : Kind → Prop} {r s t : Reading}

theorem trans (h : Reaches P r s) (h' : Reaches P s t) : Reaches P r t := by
  induction h' with
  | refl => exact h
  | advance _ hP ih => exact .advance (ih h) hP
  | report c _ ht hsame ih => exact .report c (ih h) ht hsame

/-- A diagnostic at the token in front. -/
theorem reportHere (h : Reaches P r s) (c : Cause) : Reaches P r (s.report s.current.location c) :=
  .report c h (.refl s) rfl

/-- Tokens are only taken away, and diagnostics are only added. -/
theorem suffixes (h : Reaches P r s) :
    s.stream.tokens <:+ r.stream.tokens ∧ r.reports <:+ s.reports := by
  induction h with
  | refl r => exact ⟨List.suffix_refl _, List.suffix_refl _⟩
  | @advance r s _ _ ih =>
    rw [reports_advance]
    exact ⟨(tokens_advance_suffix s).trans ih.1, ih.2⟩
  | @report r t s c _ _ _ ih ih' =>
    rw [stream_report]
    exact ⟨ih'.1.trans ih.1, (ih.2.trans ih'.2).trans (reports_suffix_report s _ c)⟩

theorem tokens_suffix (h : Reaches P r s) : s.stream.tokens <:+ r.stream.tokens := h.suffixes.1

theorem reports_suffix (h : Reaches P r s) : r.reports <:+ s.reports := h.suffixes.2

/-- Every new diagnostic is at a token consumed or at the one in front. -/
theorem exists_consumed (h : Reaches P r s) :
    ∃ ts, r.stream.tokens = ts ++ s.stream.tokens ∧ s.stream.ending = r.stream.ending ∧
      (∀ t ∈ ts, P t.kind) ∧
      ∀ d ∈ s.reports, d ∈ r.reports ∨ ∃ t ∈ ts ++ [s.current], d.location = t.location := by
  induction h with
  | refl r => exact ⟨[], rfl, rfl, by simp, fun d hd => .inl hd⟩
  | @advance r s _ hP ih =>
    obtain ⟨ts, htokens, hending, hts, hreported⟩ := ih
    by_cases heof : s.current.kind = .eof
    · rw [Reading.advance, if_pos heof]
      exact ⟨ts, htokens, hending, hts, hreported⟩
    · refine ⟨ts ++ [s.current], ?_, ?_, ?_, fun d hd => ?_⟩
      · rw [tokens_advance heof, List.append_assoc, List.singleton_append, ← tokens_eq_cons heof,
          htokens]
      · rw [advance_eq heof]
        exact hending
      · rw [List.forall_mem_append, List.forall_mem_singleton]
        exact ⟨hts, hP⟩
      · rw [reports_advance] at hd
        rcases hreported d hd with hd | ⟨t, ht, hlocation⟩
        · exact .inl hd
        · exact .inr ⟨t, List.mem_append_left _ ht, hlocation⟩
  | @report r t s c _ _ hsame ih ih' =>
    obtain ⟨ts, htokens, hending, hts, hreported⟩ := ih
    obtain ⟨us, htokens', hending', hus, -⟩ := ih'
    have hcurrent : t.current ∈ us ++ [s.current] := by
      rw [current_of_append htokens' hending']
      cases us <;> simp
    have hseen {u : Token} (hu : u ∈ ts ++ [t.current]) : u ∈ ts ++ us ++ [s.current] := by
      rw [List.append_assoc]
      rcases List.mem_append.mp hu with hu | hu
      · exact List.mem_append_left _ hu
      · exact List.mem_append_right _ (List.mem_singleton.mp hu ▸ hcurrent)
    refine ⟨ts ++ us, ?_, ?_, ?_, fun d hd => ?_⟩
    · rw [stream_report, List.append_assoc, ← htokens', htokens]
    · rw [stream_report, hending', hending]
    · rw [List.forall_mem_append]
      exact ⟨hts, hus⟩
    · rw [current_report]
      rcases mem_report hd with hd | hlocation
      · rcases hreported d (hsame ▸ hd) with hd | ⟨u, hu, hlocation⟩
        · exact .inl hd
        · exact .inr ⟨u, hseen hu, hlocation⟩
      · exact .inr ⟨t.current, hseen (by simp), hlocation⟩

end Reaches

end Reading

end FirSyntax
