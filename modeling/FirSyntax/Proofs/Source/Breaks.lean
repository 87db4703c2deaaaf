import Mathlib.Data.List.DropRight
import FirSyntax.Proofs.Source.Passing

/-!
# Breaks between lines

A break is white space that ends with the end of a line. Which white space it is does not bear on
what is left behind it: at the start of a line it is passed as a whole, and inside a line up to its
first line end. Two inputs that differ in a break alone are passed alike up to that break.
-/
namespace FirSyntax.Source

/-- White space that ends with the end of a line. -/
structure IsBreak (gap : List Piece) : Prop where
  blank : ∀ x ∈ gap, x.isChar isBlank = true
  terminated : Terminated gap

/-- In front of either of two parts a test holds at the same pieces. -/
def Agrees (p : List Piece → Bool) (front back back' : List Piece) : Prop :=
  ∀ x run, x :: run <:+ front → p (x :: (run ++ back)) = p (x :: (run ++ back'))

variable {p : List Piece → Bool} {x : Piece} {gap front back back' : List Piece} {l : Location}

namespace IsBreak

theorem of_cons (h : IsBreak (x :: gap)) (hne : gap ≠ []) : IsBreak gap :=
  ⟨(List.forall_mem_cons.mp h.blank).2, h.terminated.of_cons hne⟩

theorem atBlank (h : IsBreak (x :: gap)) (rest : List Piece) : atBlank (x :: rest) = true :=
  (List.forall_mem_cons.mp h.blank).1

theorem of_append (h : IsBreak (front ++ gap)) (hne : gap ≠ []) : IsBreak gap :=
  ⟨(List.forall_mem_append.mp h.blank).2, h.terminated.of_append hne⟩

/-- The last piece of a break ends its line, whatever follows. -/
theorem endsLine_singleton (h : IsBreak [x]) (hback : Separate back) :
    endsLine (x :: back) = true := by
  have hlocal := local_endsLine hback x []
  rw [List.singleton_append] at hlocal
  rw [hlocal]
  exact h.terminated.of_singleton

/-- White space in front of a break, whether or not it ends lines. -/
theorem append (hfront : ∀ y ∈ front, y.isChar isBlank = true) (h : IsBreak gap) :
    IsBreak (front ++ gap) := by
  obtain ⟨init, last, rfl, hlast⟩ := h.terminated
  refine ⟨List.forall_mem_append.mpr ⟨hfront, h.blank⟩, front ++ init, last, ?_, hlast⟩
  rw [List.append_assoc]

theorem isBreak_newlines {lines : List Piece} (hne : lines ≠ []) (h : ∀ y ∈ lines, y = .char '\n') :
    IsBreak lines := by
  refine ⟨fun y hy => ?_, ?_⟩
  · rw [h y hy]
    decide
  · obtain ⟨init, last, rfl⟩ := (List.eq_nil_or_concat' lines).resolve_left hne
    refine ⟨init, last, rfl, ?_⟩
    rw [h last (List.mem_append_right _ (List.mem_singleton_self last))]
    decide

/-- A break may be followed by further line feeds. -/
theorem append_newlines {lines : List Piece} (h : IsBreak gap)
    (hlines : ∀ y ∈ lines, y = .char '\n') : IsBreak (gap ++ lines) := by
  by_cases hne : lines = []
  · rwa [hne, List.append_nil]
  · exact append h.blank (isBreak_newlines hne hlines)

end IsBreak

/-- What follows a break is cut behind the line feeds at its beginning, of which the first may be the
second half of CR LF. -/
theorem exists_separate (back : List Piece) :
    ∃ lines rest, back = lines ++ rest ∧ (∀ y ∈ lines, y = .char '\n') ∧ Separate rest := by
  refine ⟨back.takeWhile (· == .char '\n'), back.dropWhile (· == .char '\n'),
    List.takeWhile_append_dropWhile.symm, fun y hy => ?_, fun hhead => ?_⟩
  · have hy' := List.mem_takeWhile_imp hy
    exact beq_iff_eq.mp hy'
  · have hnot := List.head?_dropWhile_not (· == Piece.char '\n') back
    rw [hhead] at hnot
    simp at hnot

/-- What precedes a break is cut in front of the CRs at its end, of which the last may be the first half
of CR LF. -/
theorem exists_without_return (front : List Piece) :
    ∃ init returns, front = init ++ returns ∧ (∀ y ∈ returns, y.isChar isBlank = true) ∧
      init.getLast? ≠ some (.char '\r') := by
  refine ⟨front.rdropWhile (· == .char '\r'), front.rtakeWhile (· == .char '\r'),
    List.rdropWhile_append_rtakeWhile.symm, fun y hy => ?_, fun hlast => ?_⟩
  · have hy' := List.mem_rtakeWhile_imp hy
    rw [beq_iff_eq.mp hy']
    decide
  · obtain ⟨hne, hlast⟩ := List.mem_getLast?_eq_getLast hlast
    have hnot := List.rdropWhile_last_not (· == Piece.char '\r') front hne
    rw [← hlast] at hnot
    exact hnot (beq_self_eq_true _)

namespace Cursor

/-- A break at the start of a line leads to the start of another line. -/
theorem skip_break (h : IsBreak gap) (hback : Separate back) (l : Location) :
    ∃ n, (⟨gap ++ back, l⟩ : Cursor).skip Source.atBlank =
      (⟨back, ⟨n, 1⟩⟩ : Cursor).skip Source.atBlank := by
  induction gap generalizing l with
  | nil => exact absurd rfl h.terminated.ne_nil
  | cons x gap ih =>
    rw [List.cons_append, skip_cons (h.atBlank _)]
    by_cases hgap : gap = []
    · subst hgap
      rw [List.nil_append, after, if_pos (h.endsLine_singleton hback)]
      exact ⟨_, rfl⟩
    · exact ih (h.of_cons hgap) _

/-- Up to the first line end of a break there is only white space. -/
theorem span_break (hp : ∀ ys, Source.atBlank ys = true → p ys = !endsLine ys) (h : IsBreak gap)
    (hback : Separate back) (l : Location) :
    ∃ blanks y rest l', gap = blanks ++ y :: rest ∧ (rest = [] ∨ IsBreak rest) ∧
      endsLine (y :: (rest ++ back)) = true ∧
      (⟨gap ++ back, l⟩ : Cursor).span p = (blanks, ⟨y :: (rest ++ back), l'⟩) := by
  induction gap generalizing l with
  | nil => exact absurd rfl h.terminated.ne_nil
  | cons x gap ih =>
    have hx := hp (x :: (gap ++ back)) (h.atBlank _)
    cases hends : endsLine (x :: (gap ++ back)) with
    | true =>
      rw [hends, Bool.not_true] at hx
      refine ⟨[], x, gap, l, rfl, ?_, hends, span_of_false (c := ⟨x :: (gap ++ back), l⟩) hx⟩
      by_cases hgap : gap = []
      · exact .inl hgap
      · exact .inr (h.of_cons hgap)
    | false =>
      rw [hends, Bool.not_false] at hx
      have hgap : gap ≠ [] := by
        rintro rfl
        rw [List.nil_append, h.endsLine_singleton hback] at hends
        cases hends
      obtain ⟨blanks, y, rest, l', hsplit, hrest, hy, hspan⟩ :=
        ih (h.of_cons hgap) (after l (x :: (gap ++ back)))
      refine ⟨x :: blanks, y, rest, l', by rw [hsplit, List.cons_append], hrest, hy, ?_⟩
      rw [List.cons_append, span_cons hx, hspan]

end Cursor

/-! ## Inputs that differ in a break -/

namespace Agrees

theorem of_local (h : Local p back) (h' : Local p back') : Agrees p front back back' := by
  intro x run _
  have hsame := (h x run).trans (h' x run).symm
  exact hsame

theorem of_suffix {front' : List Piece} (h : Agrees p front back back')
    (hsuffix : front' <:+ front) : Agrees p front' back back' :=
  fun x run hrun => h x run (hrun.trans hsuffix)

theorem head (h : Agrees p (x :: front) back back') :
    p (x :: (front ++ back)) = p (x :: (front ++ back')) :=
  h x front (List.suffix_refl _)

theorem tail (h : Agrees p (x :: front) back back') : Agrees p front back back' :=
  h.of_suffix (List.suffix_cons x front)

theorem atInnerBlank (h : Agrees endsLine front back back') :
    Agrees atInnerBlank front back back' := by
  intro x run hrun
  rw [Source.atInnerBlank, Source.atInnerBlank, h x run hrun]
  rfl

theorem not_endsLine (h : Agrees endsLine front back back') :
    Agrees (fun ys => !endsLine ys) front back back' :=
  fun x run hrun => congrArg (!·) (h x run hrun)

/-- Lines are cut alike in front of two parts unless a CR is left in front of them. -/
theorem endsLine (h : front.getLast? ≠ some (.char '\r')) : Agrees endsLine front back back' := by
  intro x run hrun
  cases x with
  | invalid bytes => rfl
  | char c =>
    cases run with
    | cons y run => rfl
    | nil =>
      obtain ⟨init, rfl⟩ := hrun
      rw [List.getLast?_concat] at h
      have hne : (c == '\r') = false := by
        rw [beq_eq_false_iff_ne]
        rintro rfl
        exact h rfl
      simp only [Source.endsLine, hne, Bool.false_and]

/-- The first piece leads to the same location in both inputs. -/
theorem after (h : Agrees Source.endsLine (x :: front) back back') (l : Location) :
    Source.after l (x :: (front ++ back')) = Source.after l (x :: (front ++ back)) := by
  rw [Source.after, Source.after, h.head]

end Agrees

/-- A span over two inputs that differ behind `front` either stops in front of the same piece there, or
goes on at the same location behind it. -/
theorem Cursor.span_agrees (hp : Agrees p front back back')
    (hends : Agrees endsLine front back back') (l : Location) :
    (∃ run x rest l', front = run ++ x :: rest ∧
      (⟨front ++ back, l⟩ : Cursor).span p = (run, ⟨x :: (rest ++ back), l'⟩) ∧
      (⟨front ++ back', l⟩ : Cursor).span p = (run, ⟨x :: (rest ++ back'), l'⟩)) ∨
    ∃ l', (⟨front ++ back, l⟩ : Cursor).span p =
        (front ++ (span p ⟨back, l'⟩).1, (span p ⟨back, l'⟩).2) ∧
      (⟨front ++ back', l⟩ : Cursor).span p =
        (front ++ (span p ⟨back', l'⟩).1, (span p ⟨back', l'⟩).2) := by
  induction front generalizing l with
  | nil => exact .inr ⟨l, rfl, rfl⟩
  | cons x front ih =>
    have hx := hp.head
    cases hpass : p (x :: (front ++ back)) with
    | false =>
      rw [hpass] at hx
      refine .inl ⟨[], x, front, l, rfl, ?_, ?_⟩
      · exact span_of_false (c := ⟨x :: (front ++ back), l⟩) hpass
      · exact span_of_false (c := ⟨x :: (front ++ back'), l⟩) hx.symm
    | true =>
      rw [hpass] at hx
      rw [List.cons_append, List.cons_append, span_cons hpass, span_cons hx.symm, hends.after]
      rcases ih hp.tail hends.tail (after l (x :: (front ++ back))) with
        ⟨run, y, rest, l', hsplit, hspan, hspan'⟩ | ⟨l', hspan, hspan'⟩
      · refine .inl ⟨x :: run, y, rest, l', by rw [hsplit, List.cons_append], ?_, ?_⟩
        · rw [hspan]
        · rw [hspan']
      · refine .inr ⟨l', ?_, ?_⟩
        · rw [hspan]
          rfl
        · rw [hspan']
          rfl

/-- A span that does not go on behind `front` takes the same pieces of it in both inputs. -/
theorem Cursor.span_agrees_of_stop (hp : Agrees p front back back')
    (hends : Agrees endsLine front back back') (hback : p back = false) (hback' : p back' = false)
    (l : Location) :
    ∃ run rest l', front = run ++ rest ∧
      (⟨front ++ back, l⟩ : Cursor).span p = (run, ⟨rest ++ back, l'⟩) ∧
      (⟨front ++ back', l⟩ : Cursor).span p = (run, ⟨rest ++ back', l'⟩) := by
  rcases span_agrees hp hends l with ⟨run, x, rest, l', hsplit, hspan, hspan'⟩ | ⟨l', hspan, hspan'⟩
  · exact ⟨run, x :: rest, l', hsplit, hspan, hspan'⟩
  · rw [span_of_false (c := ⟨back, l'⟩) hback, List.append_nil] at hspan
    rw [span_of_false (c := ⟨back', l'⟩) hback', List.append_nil] at hspan'
    exact ⟨front, [], l', (List.append_nil front).symm, hspan, hspan'⟩

end FirSyntax.Source
