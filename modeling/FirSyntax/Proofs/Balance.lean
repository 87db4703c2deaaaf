import FirSyntax.Proofs.Reading.FileReaches
import FirSyntax.Proofs.Token.Balance

/-!
# Levels and depth

The scanner closes every level that it opens, and no other. The reader counts the same levels: it
changes its depth at the tokens that open and close them and nowhere else, so that its depth is
never taken below zero, however lines are passed over.
-/
namespace FirSyntax

open Token

/-- Levels are closed only when they have been opened. -/
def Token.Balanced (ts : List Token) : Prop := ∀ front, front <+: ts → closed front ≤ opened front

theorem Token.Stream.balanced_ofBytes (U : Unicode.CharData) (bytes : List UInt8) :
    Balanced (ofBytes U bytes).tokens := by
  intro front hfront
  have htake := Scanner.opened_take (U := U) (s := .start (Source.ofBytes bytes)) rfl front.length
  rw [List.prefix_iff_eq_take.mp hfront]
  exact Nat.le.intro htake.symm

namespace Reading

variable {r s : Reading} {whole : List Token} {P : Kind → Prop}

/-- The depth is the number of levels opened and not closed by the tokens that were consumed. -/
def CountsLevels (whole : List Token) (r : Reading) : Prop :=
  ∃ consumed, whole = consumed ++ r.stream.tokens ∧ opened consumed = closed consumed + r.depth

theorem countsLevels_start (stream : Stream) : (start stream).CountsLevels stream.tokens :=
  ⟨[], rfl, rfl⟩

/-- In front of a token that closes a level, a level is open. -/
theorem CountsLevels.depth_pos (h : r.CountsLevels whole) (hwhole : Balanced whole)
    (hcloses : r.current.kind.closes = true) : 0 < r.depth := by
  have hne : r.current.kind ≠ .eof := by
    intro heof
    rw [heof] at hcloses
    cases hcloses
  obtain ⟨consumed, htokens, hdepth⟩ := h
  have hprefix : consumed ++ [r.current] <+: whole := by
    rw [htokens, tokens_eq_cons hne]
    exact (List.prefix_append_right_inj consumed).mpr (List.prefix_append [r.current] _)
  have hle := hwhole _ hprefix
  have hopens : r.current.kind ≠ .indent := by
    intro hindent
    rw [hindent] at hcloses
    cases hcloses
  rw [closed_append, opened_append, closed_cons, opened_cons, if_pos hcloses, if_neg hopens] at hle
  simp only [closed_nil, opened_nil] at hle
  omega

/-- At the end of the file no level is open. -/
theorem CountsLevels.depth_eq_zero (h : r.CountsLevels whole) (hequal : opened whole = closed whole)
    (hwhole : ∀ t ∈ whole, t.kind ≠ .eof) (heof : r.current.kind = .eof) : r.depth = 0 := by
  obtain ⟨consumed, htokens, hdepth⟩ := h
  rw [tokens_of_end ⟨consumed, htokens.symm⟩ hwhole heof, List.append_nil] at htokens
  rw [← htokens] at hdepth
  omega

/-- A token moves the depth as it moves the levels. -/
theorem depthAfter_eq {depth : Nat} {k : Kind} (h : k.closes = true → 0 < depth) :
    depthAfter depth k + (if k.closes = true then 1 else 0) =
      depth + if k = .indent then 1 else 0 := by
  cases k with
  | unindent | indentMismatch => exact Nat.sub_add_cancel (h rfl)
  | _ => rfl

theorem CountsLevels.advance (h : r.CountsLevels whole) (hwhole : Balanced whole) :
    r.advance.CountsLevels whole := by
  by_cases heof : r.current.kind = .eof
  · rw [Reading.advance, if_pos heof]
    exact h
  · have hmoves := depthAfter_eq (h.depth_pos hwhole)
    obtain ⟨consumed, htokens, hdepth⟩ := h
    refine ⟨consumed ++ [r.current], ?_, ?_⟩
    · rw [tokens_advance heof, List.append_assoc, List.singleton_append, ← tokens_eq_cons heof,
        htokens]
    · rw [depth_advance heof, closed_append, opened_append, closed_cons, opened_cons, closed_nil,
        opened_nil]
      omega

/-- Whatever is consumed and reported, the depth counts the levels. -/
theorem Reaches.countsLevels (h : r.Reaches P s) (hwhole : Balanced whole)
    (hr : r.CountsLevels whole) : s.CountsLevels whole := by
  induction h with
  | refl => exact hr
  | advance _ _ ih => exact (ih hr).advance hwhole
  | report _ _ _ _ ih ih' =>
    obtain ⟨consumed, htokens, hdepth⟩ := ih' (ih hr)
    refine ⟨consumed, ?_, ?_⟩
    · rw [stream_report, htokens]
    · rw [depth_report, hdepth]

end Reading

open Reading in
/-- The levels of a lexer are nested, and they are those that its tokens have opened and not closed;
the tokens before the end of the file close what they open. The depth of a reading is the number of
levels that are open, wherever it gets to from the beginning of the file, and 0 where a file was
read. -/
theorem Reading.depth_balanced (U : Unicode.CharData) (bytes : List UInt8) :
    let stream := Stream.ofBytes U bytes
    (∀ front, front <+: stream.tokens → closed front ≤ opened front) ∧
      (∀ n, let widths := (Lexer.advanced U (Source.ofBytes bytes) n).scanner.layout.levels.reverse
        widths.Pairwise (· < ·) ∧ (∀ w ∈ widths, 0 < w) ∧
          opened (stream.tokens.take (n + 1)) =
            closed (stream.tokens.take (n + 1)) + widths.length) ∧
      opened stream.tokens = closed stream.tokens ∧
      ∀ r, (start stream).ComesTo r →
        (∃ consumed, stream.tokens = consumed ++ r.stream.tokens ∧
          opened consumed = closed consumed + r.depth) ∧
        (r.current.kind.closes = true → 0 < r.depth) ∧
        (start stream).ComesTo (Statement.readAll r).2 ∧ (Statement.readAll r).2.depth = 0 := by
  intro stream
  have hstart : (Scanner.start (Source.ofBytes bytes)).layout.levels = [] := rfl
  have hbalanced : Balanced stream.tokens := Stream.balanced_ofBytes U bytes
  have hcounts {r : Reading} (h : (start stream).ComesTo r) : r.CountsLevels stream.tokens :=
    h.countsLevels hbalanced (countsLevels_start stream)
  refine ⟨hbalanced, fun n => ?_, Scanner.opened_eq_closed hstart, fun r hr => ?_⟩
  · have hnested := Scanner.nested_after (U := U) (n + 1) (hstart ▸ nested_nil)
    rw [(Lexer.advanced_eq U (Source.ofBytes bytes) n).1]
    refine ⟨List.pairwise_reverse.mpr hnested.1, ?_, ?_⟩
    · exact fun w hw => hnested.2 w (List.mem_reverse.mp hw)
    · rw [List.length_reverse]
      exact Scanner.opened_take hstart (n + 1)
  · have hread : (start stream).ComesTo (Statement.readAll r).2 :=
      hr.trans (Statement.readAllFrom_comesTo [] r)
    have heof : (Statement.readAll r).2.current.kind = .eof := Statement.kind_readAllFrom [] r
    exact ⟨hcounts hr, (hcounts hr).depth_pos hbalanced, hread, (hcounts hread).depth_eq_zero
      (Scanner.opened_eq_closed hstart) (Scanner.ne_eof_of_mem _) heof⟩

end FirSyntax
