import FirSyntax.Source.Cursor

/-!
# Spans over parts of an input

A span that ends inside the first of two parts does not depend on the second one. A test looks at
the first piece of what is left; only the end of a line looks further, to tell CR LF from CR.
-/
namespace FirSyntax.Source

/-- Whether a piece ends a line when nothing follows it. -/
def Piece.isTerminator (x : Piece) : Bool := endsLine [x]

/-- Pieces of which the last one ends a line. -/
def Terminated (pieces : List Piece) : Prop :=
  ∃ front last, pieces = front ++ [last] ∧ last.isTerminator = true

/-- A part of an input that does not begin with the second half of CR LF. -/
def Separate (back : List Piece) : Prop := back.head? ≠ some (.char '\n')

/-- A test that does not look into the part `back` from in front of it. -/
def Local (p : List Piece → Bool) (back : List Piece) : Prop :=
  ∀ x rest, p (x :: rest ++ back) = p (x :: rest)

variable {p : List Piece → Bool} {x : Piece} {rest back taken : List Piece} {l : Location}

theorem isTerminator_of_endsLine (h : endsLine (x :: rest) = true) : x.isTerminator = true := by
  cases x with
  | char c =>
    simp only [endsLine, Piece.isTerminator, Bool.or_eq_true, Bool.and_eq_true] at h ⊢
    rcases h with h | ⟨h, -⟩
    · exact .inl h
    · exact .inr ⟨h, rfl⟩
  | invalid bs => cases h

theorem local_atBlank (back : List Piece) : Local atBlank back := fun _ _ => rfl

theorem local_endsLine (h : Separate back) : Local endsLine back := by
  intro x rest
  cases x with
  | invalid bs => rfl
  | char c =>
    cases rest with
    | cons y rest => rfl
    | nil =>
      have hback : (back.head? != some (.char '\n')) = true := by simpa [Separate] using h
      simp only [endsLine, List.cons_append, List.nil_append, hback]
      rfl

theorem local_atInnerBlank (h : Separate back) : Local atInnerBlank back := by
  intro x rest
  rw [atInnerBlank, atInnerBlank, local_endsLine h x rest, local_atBlank back x rest]

/-- White space is where a line ends. -/
theorem atBlank_of_endsLine (h : endsLine rest = true) : atBlank rest = true := by
  cases rest with
  | nil => cases h
  | cons x rest =>
    cases x with
    | invalid bs => cases h
    | char c =>
      simp only [endsLine, isTerminator, Bool.or_eq_true, Bool.and_eq_true, beq_iff_eq] at h
      simp only [atBlank, Piece.isChar]
      rcases h with ((((((rfl | rfl) | rfl) | rfl) | rfl) | rfl) | ⟨rfl, -⟩) <;> decide

namespace Terminated

theorem ne_nil (h : Terminated rest) : rest ≠ [] := by
  obtain ⟨front, last, rfl, -⟩ := h
  simp

theorem of_cons (h : Terminated (x :: rest)) (hne : rest ≠ []) : Terminated rest := by
  obtain ⟨front, last, heq, hlast⟩ := h
  cases front with
  | nil => exact absurd (List.cons.inj heq).2 hne
  | cons y front => exact ⟨front, last, (List.cons.inj heq).2, hlast⟩

theorem of_append {front : List Piece} (h : Terminated (front ++ rest)) (hne : rest ≠ []) :
    Terminated rest := by
  induction front with
  | nil => exact h
  | cons x front ih => exact ih (h.of_cons (by simp [hne]))

theorem of_singleton (h : Terminated [x]) : x.isTerminator = true := by
  obtain ⟨front, last, heq, hlast⟩ := h
  cases front with
  | nil => exact (List.cons.inj heq).1 ▸ hlast
  | cons y front => simp at heq

end Terminated

namespace Cursor

/-- The cursor with a further part behind its input. -/
def extend (c : Cursor) (back : List Piece) : Cursor := ⟨c.rest ++ back, c.location⟩

/-- A span stops in front of the last line terminator, unless its test passes terminators. -/
theorem terminated_spanFrom (hp : ∀ x : Piece, x.isTerminator = true → p [x] = false)
    (h : Terminated rest) : Terminated (spanFrom p taken rest l).2.rest := by
  induction rest generalizing taken l with
  | nil => exact absurd rfl h.ne_nil
  | cons x rest ih =>
    unfold spanFrom
    split
    · next hx =>
      by_cases hne : rest = []
      · subst hne
        simp [hp x h.of_singleton] at hx
      · exact ih (h.of_cons hne)
    · exact h

/-- A span goes on as far as its test allows. -/
theorem spanFrom_stops (p : List Piece → Bool) (taken rest : List Piece) (l : Location) :
    (spanFrom p taken rest l).2.rest = [] ∨ p (spanFrom p taken rest l).2.rest = false := by
  induction rest generalizing taken l with
  | nil => exact .inl rfl
  | cons x rest ih =>
    unfold spanFrom
    split
    · exact ih _ _
    · next h => exact .inr (by simpa using h)

/-- What has been taken does not bear on where a span ends. -/
theorem spanFrom_taken (p : List Piece → Bool) (taken rest : List Piece) (l : Location) :
    (spanFrom p taken rest l).2 = (spanFrom p [] rest l).2 := by
  induction rest generalizing taken l with
  | nil => rfl
  | cons x rest ih =>
    rw [spanFrom, spanFrom]
    split
    · rw [ih, ih [x]]
    · rfl

/-- A piece that is passed belongs to what is passed. -/
theorem skip_cons (hx : p (x :: rest) = true) :
    (Cursor.mk (x :: rest) l).skip p = (Cursor.mk rest (after l (x :: rest))).skip p := by
  rw [skip, skip, span, spanFrom, if_pos hx, spanFrom_taken]
  rfl

theorem spanFrom_extend (hp : Local p back) (hback : Separate back)
    (hstop : p back = false ∨ Terminated rest ∧ ∀ x : Piece, x.isTerminator = true → p [x] = false) :
    spanFrom p taken (rest ++ back) l =
      ((spanFrom p taken rest l).1, (spanFrom p taken rest l).2.extend back) := by
  induction rest generalizing taken l with
  | nil =>
    rcases hstop with hstop | ⟨h, -⟩
    · cases back with
      | nil => rfl
      | cons y back =>
        simp only [List.nil_append, spanFrom, hstop]
        rfl
    · exact absurd rfl h.ne_nil
  | cons x rest ih =>
    have hx := hp x rest
    have hafter : after l (x :: (rest ++ back)) = after l (x :: rest) := by
      rw [after, after, ← List.cons_append, local_endsLine hback]
    rw [List.cons_append] at hx ⊢
    simp only [spanFrom, hx, hafter]
    split
    · next htrue =>
      refine ih (hstop.imp_right ?_)
      rintro ⟨h, hlast⟩
      refine ⟨h.of_cons ?_, hlast⟩
      rintro rfl
      simp [hlast x h.of_singleton] at htrue
    · rfl

variable {c : Cursor}

theorem span_extend (hp : Local p back) (hback : Separate back)
    (hstop : p back = false ∨
      Terminated c.rest ∧ ∀ x : Piece, x.isTerminator = true → p [x] = false) :
    (c.extend back).span p = ((c.span p).1, (c.span p).2.extend back) :=
  spanFrom_extend hp hback hstop

theorem step_extend (hback : Separate back) (h : c.rest ≠ []) :
    (c.extend back).step = c.step.extend back := by
  obtain ⟨rest, l⟩ := c
  cases rest with
  | nil => exact absurd rfl h
  | cons x rest =>
    have := local_endsLine hback x rest
    simp_all [extend, step, after]

end Cursor

/-- The location behind all of the pieces `rest`, which stand at `l`. -/
def past (l : Location) : List Piece → Location
  | [] => l
  | x :: rest => past (after l (x :: rest)) rest

/-- The number of line terminators; CR LF counts once. -/
def terminators : List Piece → Nat
  | [] => 0
  | x :: rest => (if endsLine (x :: rest) then 1 else 0) + terminators rest

theorem line_past (l : Location) (rest : List Piece) :
    (past l rest).line = l.line + terminators rest := by
  induction rest generalizing l with
  | nil => rfl
  | cons x rest ih =>
    rw [past, ih, terminators, after]
    split
    · rw [Location.nextLine, Nat.add_assoc]
    · rw [Location.nextColumn, Nat.zero_add]

/-- Behind a line terminator a line begins. -/
theorem past_of_terminated (l : Location) (h : Terminated rest) :
    past l rest = ⟨l.line + terminators rest, 1⟩ ∧ 0 < terminators rest := by
  induction rest generalizing l with
  | nil => exact absurd rfl h.ne_nil
  | cons x rest ih =>
    by_cases hne : rest = []
    · subst hne
      have hx : endsLine [x] = true := h.of_singleton
      simp [past, terminators, after, hx, Location.nextLine]
    · obtain ⟨hpast, hpos⟩ := ih (after l (x :: rest)) (h.of_cons hne)
      rw [past, hpast, terminators, after]
      split
      · exact ⟨by rw [Location.nextLine, Nat.add_assoc], by omega⟩
      · exact ⟨by rw [Location.nextColumn, Nat.zero_add], by omega⟩

namespace Cursor

theorem past_spanFrom (p : List Piece → Bool) (taken rest : List Piece) (l : Location) :
    past (spanFrom p taken rest l).2.location (spanFrom p taken rest l).2.rest = past l rest := by
  induction rest generalizing taken l with
  | nil => rfl
  | cons x rest ih =>
    unfold spanFrom
    split
    · rw [ih, past]
    · rfl

theorem line_spanFrom_le (p : List Piece → Bool) (taken rest : List Piece) (l : Location) :
    l.line ≤ (spanFrom p taken rest l).2.location.line := by
  induction rest generalizing taken l with
  | nil => exact Nat.le_refl _
  | cons x rest ih =>
    unfold spanFrom
    split
    · refine Nat.le_trans ?_ (ih _ _)
      unfold after
      split
      · exact Nat.le_succ _
      · exact Nat.le_refl _
    · exact Nat.le_refl _

theorem line_skip_le (p : List Piece → Bool) (c : Cursor) :
    c.location.line ≤ (c.skip p).location.line :=
  line_spanFrom_le p [] c.rest c.location

theorem line_span_le (p : List Piece → Bool) (c : Cursor) :
    c.location.line ≤ (c.span p).2.location.line :=
  line_spanFrom_le p [] c.rest c.location

theorem line_step_le (c : Cursor) : c.location.line ≤ c.step.location.line := by
  obtain ⟨rest, l⟩ := c
  cases rest with
  | nil => exact Nat.le_refl _
  | cons x rest =>
    simp only [step, after]
    split
    · exact Nat.le_succ _
    · exact Nat.le_refl _

/-- The location behind the input, as seen from a cursor. -/
def finish (c : Cursor) : Location := past c.location c.rest

theorem finish_span (p : List Piece → Bool) (c : Cursor) : (c.span p).2.finish = c.finish :=
  past_spanFrom p [] c.rest c.location

theorem finish_skip (p : List Piece → Bool) (c : Cursor) : (c.skip p).finish = c.finish :=
  finish_span p c

theorem finish_step (c : Cursor) : c.step.finish = c.finish := by
  obtain ⟨rest, l⟩ := c
  cases rest <;> rfl

variable {c : Cursor}

/-- A span that stops in front of a further part does not look into it. -/
theorem spanFrom_extend_of_stop (hp : Local p back) (hback : Separate back)
    (h : (spanFrom p taken rest l).2.rest ≠ []) :
    spanFrom p taken (rest ++ back) l =
      ((spanFrom p taken rest l).1, (spanFrom p taken rest l).2.extend back) := by
  induction rest generalizing taken l with
  | nil => exact absurd rfl h
  | cons x rest ih =>
    have hx := hp x rest
    have hafter : after l (x :: (rest ++ back)) = after l (x :: rest) := by
      rw [after, after, ← List.cons_append, local_endsLine hback]
    rw [List.cons_append] at hx ⊢
    rw [spanFrom] at h
    simp only [spanFrom, hx, hafter]
    split
    · next htrue =>
      rw [if_pos htrue] at h
      exact ih h
    · rfl

theorem skip_extend_of_stop (hp : Local p back) (hback : Separate back)
    (h : (c.skip p).rest ≠ []) : (c.extend back).skip p = (c.skip p).extend back :=
  congrArg Prod.snd (spanFrom_extend_of_stop hp hback h)

/-- A span that passes all of its input goes on in a further part. -/
theorem skip_extend_of_end (hp : Local p back) (hback : Separate back)
    (h : (c.skip p).rest = []) : (c.extend back).skip p = (⟨back, c.finish⟩ : Cursor).skip p := by
  obtain ⟨rest, l⟩ := c
  induction rest generalizing l with
  | nil => rfl
  | cons x rest ih =>
    have hx := hp x rest
    have hafter : after l (x :: (rest ++ back)) = after l (x :: rest) := by
      rw [after, after, ← List.cons_append, local_endsLine hback]
    rw [List.cons_append] at hx
    simp only [skip, span, extend, spanFrom, List.cons_append, hx, hafter] at h ⊢
    split
    · next htrue =>
      rw [if_pos htrue, spanFrom_taken] at h
      rw [spanFrom_taken]
      exact ih _ h
    · next hfalse => simp [if_neg hfalse] at h

/-- The same cursor with its text `n` lines further down. -/
def down (n : Nat) (c : Cursor) : Cursor := ⟨c.rest, ⟨c.location.line + n, c.location.column⟩⟩

theorem after_down (n : Nat) (l : Location) (rest : List Piece) :
    after ⟨l.line + n, l.column⟩ rest = ⟨(after l rest).line + n, (after l rest).column⟩ := by
  unfold after
  split
  · simp [Location.nextLine, Nat.add_right_comm]
  · rfl

theorem spanFrom_down (n : Nat) (p : List Piece → Bool) (taken rest : List Piece) (l : Location) :
    spanFrom p taken rest ⟨l.line + n, l.column⟩ =
      ((spanFrom p taken rest l).1, (spanFrom p taken rest l).2.down n) := by
  induction rest generalizing taken l with
  | nil => rfl
  | cons x rest ih =>
    unfold spanFrom
    split
    · rw [after_down, ih]
    · rfl

theorem span_down (n : Nat) (p : List Piece → Bool) (c : Cursor) :
    (c.down n).span p = ((c.span p).1, (c.span p).2.down n) :=
  spanFrom_down n p [] c.rest c.location

theorem skip_down (n : Nat) (p : List Piece → Bool) (c : Cursor) :
    (c.down n).skip p = (c.skip p).down n := by
  rw [skip, span_down, skip]

theorem step_down (n : Nat) (c : Cursor) : (c.down n).step = c.step.down n := by
  obtain ⟨rest, l⟩ := c
  cases rest with
  | nil => rfl
  | cons x rest =>
    simp only [step, down]
    rw [after_down]

end Cursor

end FirSyntax.Source
