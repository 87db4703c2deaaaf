import FirSyntax.Proofs.Diagnostics
import FirSyntax.Proofs.Reading.HeedsFile
import FirSyntax.Proofs.Token.Mismatch

/-!
# Mismatched indentation is reported once

Every mismatch of a source has one diagnostic, which says that mismatched indentation was found, and
no other diagnostic says so. A reading is attentive as long as this holds of the tokens that it has
consumed, and it stays so while it heeds the tokens it comes upon.
-/
namespace FirSyntax

open Token

namespace Reading

/-- What has been reported is in order. A mismatch is still ahead or was noticed; what was reported
where a mismatch stands says that it was found; and what a diagnostic says was found stands there. -/
structure Attentive (whole : Stream) (r : Reading) : Prop where
  orderly : r.Orderly whole
  noticed : ∀ m ∈ whole.tokens, m.kind = .indentMismatch →
    m ∈ r.stream.tokens ∨ r.Noticed m.location
  told : ∀ d ∈ r.reports, ∀ m ∈ whole.tokens, m.kind = .indentMismatch → d.location = m.location →
    d.cause.found? = some m
  honest : ∀ d ∈ r.reports, ∀ t, d.cause.found? = some t →
    t ∈ whole.withEnd ∧ d.location = t.location

variable {whole : Stream} {r s : Reading} {l : Location} {c : Cause} {m : Token}

theorem attentive_start (whole : Stream) : (start whole).Attentive whole where
  orderly := orderly_start (List.suffix_refl _)
  noticed := fun m hm _ => .inl hm
  told := by simp [start]
  honest := by simp [start]

theorem Noticed.report (h : r.Noticed l) (l' : Location) (c : Cause) : (r.report l' c).Noticed l := by
  obtain ⟨d, hd, hlocation⟩ := h
  exact ⟨d, (reports_suffix_report r l' c).mem hd, hlocation⟩

namespace Attentive

/-- A mismatch that was not noticed is in front, or later than the token in front. -/
theorem current_or_lt (h : r.Attentive whole) (hwhole : whole.MismatchesApart) (hm : m ∈ whole.tokens)
    (hkind : m.kind = .indentMismatch) (hnot : ¬ r.Noticed m.location) :
    r.current = m ∨ r.current.location < m.location := by
  have hahead := (h.noticed m hm hkind).resolve_right hnot
  have hapart := hwhole.sublist h.orderly.tokens_suffix.sublist
  cases htokens : r.stream.tokens with
  | nil =>
    rw [htokens] at hahead
    cases hahead
  | cons t ts =>
    rw [htokens] at hahead hapart
    rw [current_of_tokens htokens]
    rcases List.mem_cons.mp hahead with rfl | hlater
    · exact .inl rfl
    · exact .inr (List.rel_of_pairwise_cons hapart hlater hkind)

theorem advance (h : r.Attentive whole) (hwhole : whole.Ordered)
    (hnoticed : r.current.kind = .indentMismatch → r.Noticed r.current.location) :
    r.advance.Attentive whole := by
  have horderly := (h.orderly.advance hwhole).1
  by_cases heof : r.current.kind = .eof
  · rw [Reading.advance, if_pos heof]
    exact h
  · refine ⟨horderly, fun m hm hkind => ?_, ?_, ?_⟩
    · rw [tokens_advance heof, Noticed, reports_advance]
      rcases h.noticed m hm hkind with hahead | hseen
      · rw [tokens_eq_cons heof] at hahead
        rcases List.mem_cons.mp hahead with rfl | hlater
        · exact .inr (hnoticed hkind)
        · exact .inl hlater
      · exact .inr hseen
    · rw [reports_advance]
      exact h.told
    · rw [reports_advance]
      exact h.honest

/-- A diagnostic that nothing reported lies behind, and that tells of a mismatch where there is one
unless it was noticed. -/
theorem report (h : r.Attentive whole) (hle : ∀ d ∈ r.reports, d.location ≤ l)
    (hl : l ≤ r.current.location) (hmem : ∃ t ∈ whole.withEnd, t.location = l)
    (htold : ∀ m ∈ whole.tokens, m.kind = .indentMismatch → l = m.location → ¬ r.Noticed m.location →
      c.found? = some m)
    (hhonest : ∀ t, c.found? = some t → t ∈ whole.withEnd ∧ l = t.location) :
    (r.report l c).Attentive whole := by
  have horderly : (r.report l c).Orderly whole := h.orderly.report hle hl hmem
  have hnoticed : ∀ m ∈ whole.tokens, m.kind = .indentMismatch →
      m ∈ (r.report l c).stream.tokens ∨ (r.report l c).Noticed m.location := by
    intro m hm hkind
    rw [stream_report]
    exact (h.noticed m hm hkind).imp_right fun hseen => hseen.report l c
  refine ⟨horderly, hnoticed, ?_, ?_⟩
  · unfold Reading.report
    split
    · exact h.told
    · next hne =>
      have hlt := lt_of_head_ne h.orderly.sorted hle hne
      refine List.forall_mem_cons.mpr ⟨fun m hm hkind hlocation => ?_, h.told⟩
      refine htold m hm hkind hlocation ?_
      rintro ⟨d, hd, hseen⟩
      exact absurd (hseen.trans hlocation.symm) (ne_of_lt (hlt d hd))
  · unfold Reading.report
    split
    · exact h.honest
    · exact List.forall_mem_cons.mpr ⟨hhonest, h.honest⟩

theorem reportExpected (h : r.Attentive whole) (hwhole : whole.MismatchesApart)
    (wanted : Expectation) : (r.reportExpected wanted).Attentive whole := by
  refine h.report h.orderly.passed le_rfl ⟨r.current, h.orderly.current_mem, rfl⟩ ?_ ?_
  · intro m hm hkind hlocation hnot
    rcases h.current_or_lt hwhole hm hkind hnot with heq | hlt
    · exact congrArg some heq
    · exact absurd hlocation (ne_of_lt hlt)
  · rintro t ⟨⟩
    exact ⟨h.orderly.current_mem, rfl⟩

end Attentive

/-- A reading that heeds its tokens stays attentive. -/
theorem Heeds.attentive (h : r.Heeds s) (hordered : whole.Ordered) (hapart : whole.MismatchesApart)
    (hr : r.Attentive whole) : s.Attentive whole := by
  induction h with
  | refl => exact hr
  | advance _ hnoticed ih => exact (ih hr).advance hordered hnoticed
  | expected wanted _ ih => exact (ih hr).reportExpected hapart wanted
  | @fault r t s c _ hts hsame hkind hfound ih ih' =>
    have ht := ih hr
    have hle := (hts.comesTo.orderly hordered ht.orderly).2
    refine (ih' ht).report (hsame ▸ ht.orderly.passed) hle
      ⟨t.current, ht.orderly.current_mem, rfl⟩ ?_ (by simp [hfound])
    intro m hm hmismatch hlocation hnot
    rw [Noticed, hsame] at hnot
    rcases ht.current_or_lt hapart hm hmismatch hnot with rfl | hlt
    · exact absurd hmismatch hkind
    · exact absurd hlocation (ne_of_lt hlt)

end Reading

/-! ## The wording -/

/-- The text ends in a way that the report of a mismatch does not. -/
def EndsOtherwise (text : String) : Prop :=
  ∃ front last : String, text = front ++ last ∧
    ¬ last.toList <:+ "found mismatched indentation".toList ∧
    ¬ "found mismatched indentation".toList <:+ last.toList

theorem EndsOtherwise.of_literal {text : String}
    (h : ¬ text.toList <:+ "found mismatched indentation".toList)
    (h' : ¬ "found mismatched indentation".toList <:+ text.toList) : EndsOtherwise text :=
  ⟨"", text, by rw [String.empty_append], h, h'⟩

theorem EndsOtherwise.append {text : String} (h : EndsOtherwise text) (front : String) :
    EndsOtherwise (front ++ text) := by
  obtain ⟨front', last, rfl, hlast⟩ := h
  exact ⟨front ++ front', last, by rw [String.append_assoc], hlast⟩

theorem EndsOtherwise.ne {text : String} (h : EndsOtherwise text) (front : String) :
    text ≠ front ++ "found mismatched indentation" := by
  intro heq
  obtain ⟨front', last, rfl, hlast, hlast'⟩ := h
  have hlists := congrArg String.toList heq
  rw [String.toList_append, String.toList_append] at hlists
  have hsuffix : "found mismatched indentation".toList <:+ front'.toList ++ last.toList :=
    hlists ▸ List.suffix_append front.toList _
  rcases List.suffix_or_suffix_of_suffix (List.suffix_append _ last.toList) hsuffix with h | h
  · exact hlast h
  · exact hlast' h

theorem Token.found_endsOtherwise {t : Token} (h : t.kind ≠ .indentMismatch) :
    EndsOtherwise (", found " ++ t.describe) := by
  unfold describe
  split
  · exact .of_literal (by decide) (by decide)
  · exact .of_literal (by decide) (by decide)
  · exact .of_literal (by decide) (by decide)
  · exact .of_literal (by decide) (by decide)
  · exact .of_literal (by decide) (by decide)
  · contradiction
  · exact .of_literal (by decide) (by decide)
  · have hquote : EndsOtherwise "’" := .of_literal (by decide) (by decide)
    exact (hquote.append _).append _

theorem Cause.message_endsOtherwise {c : Cause}
    (h : ∀ t, c.found? = some t → t.kind ≠ .indentMismatch) : EndsOtherwise c.message := by
  cases c with
  | expected wanted found =>
    have hmessage : (expected wanted found).message =
        "Expected " ++ wanted.describe ++ (", found " ++ found.describe) := by
      rw [← String.append_assoc]
      rfl
    rw [hmessage]
    exact (Token.found_endsOtherwise (h found rfl)).append _
  | notAtTopLevel | noStatement | constantComma => exact .of_literal (by decide) (by decide)
  | constantWithoutValue name =>
    have hvalue : EndsOtherwise "” must have a value" := .of_literal (by decide) (by decide)
    exact hvalue.append _

/-- A diagnostic says that mismatched indentation was found exactly if it names such a token. -/
theorem Cause.message_mismatch_iff (c : Cause) :
    (∃ front, c.message = front ++ "found mismatched indentation") ↔
      ∃ t, c.found? = some t ∧ t.kind = .indentMismatch := by
  constructor
  · rintro ⟨front, hmessage⟩
    by_contra hnone
    refine EndsOtherwise.ne (message_endsOtherwise fun t hfound hkind => ?_) front hmessage
    exact hnone ⟨t, hfound, hkind⟩
  · rintro ⟨t, hfound, hkind⟩
    cases c with
    | expected wanted found =>
      obtain rfl : found = t := Option.some.inj hfound
      refine ⟨"Expected " ++ wanted.describe ++ ", ", ?_⟩
      have hdescribe : found.describe = "mismatched indentation" := by
        rw [Token.describe, hkind]
      have hmessage : (expected wanted found).message =
          "Expected " ++ wanted.describe ++ ", found " ++ found.describe := rfl
      have hlast (text : String) : text ++ ", found " ++ "mismatched indentation" =
          text ++ ", " ++ "found mismatched indentation" := by
        rw [String.append_assoc, String.append_assoc]
        rfl
      rw [hmessage, hdescribe, hlast]
    | notAtTopLevel | noStatement | constantComma | constantWithoutValue => cases hfound

namespace SourceFile

theorem filter_location_eq_singleton {ds : List Diagnostic} {d : Diagnostic}
    (h : ds.Pairwise fun d e => d.location ≠ e.location) (hd : d ∈ ds) :
    ds.filter (·.location = d.location) = [d] := by
  induction ds with
  | nil => cases hd
  | cons e ds ih =>
    obtain ⟨hne, hds⟩ := List.pairwise_cons.mp h
    rcases List.mem_cons.mp hd with rfl | hd
    · rw [List.filter_cons_of_pos (by simp), List.filter_eq_nil_iff.mpr]
      intro e he
      simpa using (hne e he).symm
    · rw [List.filter_cons_of_neg (by simpa using hne d hd)]
      exact ih hds hd

open Reading in
/-- Where a source has mismatched indentation there is exactly one diagnostic, whose message ends by
saying so, and no message ends so anywhere else. -/
theorem parse_mismatches (U : Unicode.CharData) (name directory : String) (bytes : List UInt8) :
    let tokens := (Stream.ofBytes U bytes).tokens
    let diagnostics := (parse U name directory bytes).2
    (∀ t ∈ tokens, t.kind = .indentMismatch →
        ∃ d, diagnostics.filter (·.location = t.location) = [d] ∧
          ∃ front, d.message = front ++ "found mismatched indentation") ∧
      ∀ d ∈ diagnostics, (∃ front, d.message = front ++ "found mismatched indentation") →
        ∃ t ∈ tokens, t.kind = .indentMismatch ∧ t.location = d.location := by
  intro tokens diagnostics
  have hend : (Statement.readAll (start (Stream.ofBytes U bytes))).2.current.kind = .eof :=
    Statement.kind_readAllFrom [] _
  have hattentive : (Statement.readAll (start (Stream.ofBytes U bytes))).2.Attentive
      (Stream.ofBytes U bytes) :=
    (Statement.readAllFrom_heeds [] _).attentive (Stream.ordered_ofBytes U bytes)
      (Stream.mismatchesApart_ofBytes U bytes) (attentive_start _)
  have hdiagnostics : diagnostics =
      (Statement.readAll (start (Stream.ofBytes U bytes))).2.reports.reverse := rfl
  generalize (Statement.readAll (start (Stream.ofBytes U bytes))).2 = r
    at hend hattentive hdiagnostics
  have hmem (d : Diagnostic) : d ∈ diagnostics ↔ d ∈ r.reports := by
    rw [hdiagnostics, List.mem_reverse]
  have hdistinct : diagnostics.Pairwise fun d e => d.location ≠ e.location := by
    rw [hdiagnostics, List.pairwise_reverse]
    exact hattentive.orderly.sorted.imp ne_of_lt
  refine ⟨fun t ht hkind => ?_, fun d hd hmessage => ?_⟩
  · have hnotice : r.Noticed t.location := by
      refine (hattentive.noticed t ht hkind).resolve_left fun hahead => ?_
      rw [tokens_of_end hattentive.orderly.tokens_suffix (Scanner.ne_eof_of_mem _) hend] at hahead
      cases hahead
    obtain ⟨d, hd, hlocation⟩ := hnotice
    have htold := hattentive.told d hd t ht hkind hlocation
    refine ⟨d, ?_, (Cause.message_mismatch_iff d.cause).mpr ⟨t, htold, hkind⟩⟩
    rw [← hlocation]
    exact filter_location_eq_singleton hdistinct ((hmem d).mpr hd)
  · obtain ⟨t, hfound, hkind⟩ := (Cause.message_mismatch_iff d.cause).mp hmessage
    obtain ⟨ht, hlocation⟩ := hattentive.honest d ((hmem d).mp hd) t hfound
    refine ⟨t, (List.mem_append.mp ht).resolve_right fun hlast => ?_, hkind, hlocation.symm⟩
    rw [List.mem_singleton.mp hlast] at hkind
    cases hkind

end SourceFile

end FirSyntax
