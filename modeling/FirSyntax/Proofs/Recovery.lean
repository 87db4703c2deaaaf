import FirSyntax.Proofs.Reading.Skipping
import Mathlib.Data.List.Induction

/-!
# Recovery stops at the next line

Passing over a broken line ends at the first place where the line is over. What is passed over is the
rest of the line and the blocks opened beneath it, and of these only mismatches are reported.
-/
namespace FirSyntax

open Token

namespace Reading

variable {depth : Nat} {r s : Reading} {passed : List Token}

/-- A token behind `front` belongs to the line on which `front` begins: the line has not ended in front
of it, or the token opens a block directly beneath the line. -/
def OfLine (front : List Token) (t : Token) : Prop :=
  (∀ u ∈ front, u.kind.isLayout = false) ∨
    t.kind = .indent ∧ ∃ line last, front = line ++ [last] ∧ last.kind = .newline ∧
      ∀ u ∈ line, u.kind.isLayout = false

/-- At the level of the line, nothing but the line itself is passed over. -/
theorem Skips.ofLine (h : Skips depth r passed s) (front : List Token) (t : Token) (back : List Token)
    (heq : passed = front ++ t :: back) (hlevel : depthAlong r.depth front = depth) :
    OfLine front t := by
  -- The level of the line is left by an indentation only, and the way back to it ends what is passed.
  induction front using List.reverseRecOn generalizing t back with
  | nil => exact .inl (List.forall_mem_nil _)
  | append_singleton front u ih =>
    have hfront : passed = front ++ u :: (t :: back) := by
      rw [heq, List.append_assoc, List.singleton_append]
    have hdeep := h.deep front (hfront ▸ List.prefix_append front _)
    have hhere := h.goesOn front u _ hfront
    have hthere := h.goesOn (front ++ [u]) t back heq
    have hlast : (front ++ [u]).getLast?.map (·.kind) = some u.kind := by simp
    rw [LineOverAt, hlevel, hlast] at hthere
    rw [depthAlong_concat] at hlevel
    cases hlayout : u.kind.isLayout with
    | false =>
      rw [depthAfter_of_content hlayout] at hlevel
      rcases ih u (t :: back) hfront hlevel with hline | ⟨hindent, -⟩
      · exact .inl (List.forall_mem_append.mpr ⟨hline, List.forall_mem_singleton.mpr hlayout⟩)
      · rw [hindent] at hlayout
        cases hlayout
    | true =>
      cases hk : u.kind with
      | newline =>
        rw [hk] at hlevel hthere
        rcases ih u (t :: back) hfront hlevel with hline | ⟨hindent, -⟩
        · refine .inr ⟨?_, front, u, rfl, hk, hline⟩
          by_contra hnext
          exact hthere (.newline rfl rfl hnext)
        · cases hk.symm.trans hindent
      | indent =>
        rw [hk, depthAfter] at hlevel
        omega
      | unindent =>
        rw [hk] at hthere
        exact absurd (.unindent rfl rfl) hthere
      | indentMismatch =>
        rw [hk, depthAfter] at hlevel
        rw [LineOverAt, hk] at hhere
        exact absurd (.mismatch (by omega)) hhere
      | eof =>
        rw [LineOverAt, hk] at hhere
        exact absurd .eof hhere
      | _ =>
        rw [hk] at hlayout
        cases hlayout

theorem message_mismatchFound {t : Token} (h : t.kind = .indentMismatch) :
    (mismatchFound t).message = "Expected un-indentation, found mismatched indentation" := by
  have hdescribe : t.describe = "mismatched indentation" := by rw [Token.describe, h]
  have hmessage : (mismatchFound t).message =
      "Expected " ++ "un-indentation" ++ ", found " ++ t.describe := rfl
  rw [hmessage, hdescribe]
  rfl

theorem message_missed {ds : List Diagnostic} {ts : List Token} {d : Diagnostic}
    (h : d ∈ missed ds ts) :
    d.message = "Expected un-indentation, found mismatched indentation" := by
  obtain ⟨t, ht, rfl⟩ := List.mem_map.mp h
  exact message_mismatchFound (of_decide_eq_true (List.mem_filter.mp ht).2).1

/-- Wherever a reader gets to in a source, let it pass over a line that began with no more levels open
than there are. No level of the line is left on the way, and the reader stops at the first place where
the line is over: at the end of the file; in front of an un-indentation or behind the end of a line, at
the level of the line and where no block opens; behind the un-indentation that comes back to that level;
or in front of a mismatch that would leave the level or come back to it. At the level of the line
nothing else is passed over than the line itself, so everything else is in blocks opened beneath it.
For each mismatch that is passed over there is a diagnostic, unless there was one at its location, and
nothing else is reported. -/
theorem skipLine_stops (U : Unicode.CharData) (bytes : List UInt8)
    (hr : (start (Stream.ofBytes U bytes)).ComesTo r) (hdepth : depth ≤ r.depth) :
    let s := r.skipLine depth
    ∃ passed, r.stream.tokens = passed ++ s.stream.tokens ∧ s.stream.ending = r.stream.ending ∧
      s.depth = depthAlong r.depth passed ∧
      (∀ front, front <+: passed → depth ≤ depthAlong r.depth front) ∧
      LineOver depth (passed.getLast?.map (·.kind)) s.depth s.current.kind ∧
      (∀ front t back, passed = front ++ t :: back →
        ¬ LineOver depth (front.getLast?.map (·.kind)) (depthAlong r.depth front) t.kind ∧
          (depthAlong r.depth front = depth → OfLine front t)) ∧
      s.diagnostics = r.diagnostics ++ missed r.reports passed ∧
      ∀ d ∈ missed r.reports passed,
        d.message = "Expected un-indentation, found mismatched indentation" := by
  intro s
  have hordered := Stream.ordered_ofBytes U bytes
  have horderly := (hr.orderly hordered (orderly_start (List.suffix_refl _))).1
  obtain ⟨passed, h⟩ := exists_skips hordered (Stream.mismatchesApart_ofBytes U bytes) r horderly hdepth
  refine ⟨passed, h.tokens, h.ending, h.depth_eq, h.deep, ?_, fun front t back heq => ?_, ?_,
    fun d => message_missed⟩
  · rw [h.depth_eq]
    exact h.stops
  · exact ⟨h.goesOn front t back heq, h.ofLine front t back heq⟩
  · rw [diagnostics, h.reports, List.reverse_append, List.reverse_reverse]
    rfl

/-- Line 4 closes only the innermost of the levels that are passed over. -/
theorem skipLine_stops_mismatch :
    let r := start (Stream.ofBytes .standard (Source.utf8 "oops\n  a\n      b\n    c\nvar d\n"))
    let s := r.skipLine 0
    ∃ passed : List Token, passed.map (·.kind) = [.identifier, .newline, .indent, .identifier, .newline,
        .indent, .identifier, .newline, .indentMismatch, .identifier, .newline, .unindent] ∧
      s.current = ⟨.keyword .var, "var", ⟨5, 1⟩⟩ ∧
      LineOver 0 (some .unindent) s.depth s.current.kind ∧
      (missed r.reports passed).map (·.location) = [⟨4, 5⟩] ∧
      s.diagnostics = missed r.reports passed := by
  intro r s
  obtain ⟨passed, htokens, -, -, -, hover, -, hdiagnostics, -⟩ :=
    @skipLine_stops 0 r .standard (Source.utf8 "oops\n  a\n      b\n    c\nvar d\n") (.refl _)
      (Nat.zero_le _)
  have hnew : s.diagnostics = missed r.reports passed := hdiagnostics
  have hlocation : s.diagnostics.map (·.location) = [⟨4, 5⟩] := by decide +kernel
  have hall : r.stream.tokens.map (·.kind) = [.identifier, .newline, .indent, .identifier, .newline,
        .indent, .identifier, .newline, .indentMismatch, .identifier, .newline, .unindent] ++
      s.stream.tokens.map (·.kind) := by decide +kernel
  have hkinds := hall.symm.trans ((congrArg (List.map (·.kind)) htokens).trans List.map_append)
  have hpassed := (List.append_cancel_right hkinds).symm
  have hlast : passed.getLast?.map (·.kind) = some .unindent := by
    rw [← List.getLast?_map, hpassed]
    rfl
  rw [hlast] at hover
  exact ⟨passed, hpassed, by decide +kernel, hover, hnew ▸ hlocation, hnew⟩

end Reading

end FirSyntax
