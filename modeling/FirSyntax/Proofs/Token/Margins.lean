import FirSyntax.Proofs.Token.Spelling

/-!
# Levels of four spaces

In a text whose levels are four spaces each, the scanner opens one level before a deeper line and
closes one for every level that a line lies further out. Where a line has its level, the scanner is
inside of it.
-/
namespace FirSyntax.Token

open Source Unicode

variable {U : CharData} {k j : Nat} {rest : List Piece} {l : Location}

/-- The widths of `k` open levels, the innermost first. -/
def margins : Nat → List Nat
  | 0 => []
  | k + 1 => 4 * (k + 1) :: margins k

theorem mem_margins {n : Nat} (hpos : 0 < n) (hle : n ≤ k) : 4 * n ∈ margins k := by
  induction k with
  | zero => omega
  | succ k ih =>
    by_cases heq : n = k + 1
    · rw [heq]
      exact List.mem_cons_self
    · exact List.mem_cons_of_mem _ (ih (by omega))

theorem headD_margins (k : Nat) : (margins k).headD 0 = 4 * k := by
  cases k <;> rfl

/-- Pieces that begin with a line of level `j`; the end of the file has level 0. -/
inductive Margin : Nat → List Piece → Prop where
  | ending : Margin 0 []
  | line {j first rest} : atBlank (first :: rest) = false →
      Margin j (List.replicate (4 * j) (.char ' ') ++ first :: rest)

/-- The tokens from the start of a line on, with `k` levels open. -/
def lineTokens (U : CharData) (k : Nat) (rest : List Piece) (l : Location) : List Token :=
  (Scanner.stream U ⟨⟨rest, l⟩, ⟨margins k, true⟩⟩).tokens

theorem skip_spaces (n : Nat) (hrest : atBlank rest = false) (l : Location) :
    (Cursor.mk (List.replicate n (.char ' ') ++ rest) l).skip atBlank =
      ⟨rest, ⟨l.line, l.column + n⟩⟩ := by
  induction n generalizing l with
  | zero => exact Scanner.skip_of_false hrest
  | succ n ih =>
    rw [List.replicate_succ, List.cons_append, Cursor.skip_cons rfl]
    show (Cursor.mk _ l.nextColumn).skip atBlank = _
    rw [ih, Location.nextColumn]
    simp only [Cursor.mk.injEq, Location.mk.injEq, true_and]
    omega

/-- A line of the innermost level. -/
theorem lineTokens_settled {first : Piece} (hblank : atBlank (first :: rest) = false)
    (hl : l.column = 1) :
    lineTokens U k (List.replicate (4 * k) (.char ' ') ++ first :: rest) l =
      ((Scanner.inLine (margins k) ⟨first :: rest, ⟨l.line, 1 + 4 * k⟩⟩).stream U).tokens := by
  have hskip := skip_spaces (4 * k) hblank l
  have hsettled := Scanner.scan_settled (U := U)
    (s := ⟨⟨List.replicate (4 * k) (.char ' ') ++ first :: rest, l⟩, ⟨margins k, true⟩⟩) rfl
    (by rw [hskip]; simp)
    (by
      rw [hskip, hl]
      simp only [Layout.shift?, Layout.width, headD_margins]
      rw [if_neg (by omega), if_neg (by omega)])
  rw [hskip, hl] at hsettled
  exact congrArg Stream.tokens (Scanner.stream_congr hsettled)

/-- A line one level further in. -/
theorem lineTokens_indent (h : Margin (k + 1) rest) (hl : l.column = 1) :
    ∃ l', lineTokens U k rest l = bare .indent l' :: lineTokens U (k + 1) rest l := by
  cases h with
  | @line _ first rest hblank =>
    have hskip := skip_spaces (4 * (k + 1)) hblank l
    have hscan := Scanner.scan_shift (U := U) (k := .indent) (m := ⟨margins (k + 1), false⟩)
      (s := ⟨⟨List.replicate (4 * (k + 1)) (.char ' ') ++ first :: rest, l⟩, ⟨margins k, true⟩⟩) rfl
      (by rw [hskip]; simp)
      (by
        rw [hskip, hl]
        simp only [Layout.shift?, Layout.width, headD_margins]
        rw [if_pos (by omega), Nat.add_comm, Nat.add_sub_cancel]
        rfl)
    rw [hskip, hl] at hscan
    refine ⟨⟨l.line, 1 + 4 * (k + 1)⟩, ?_⟩
    rw [lineTokens_settled hblank hl, lineTokens, Scanner.stream_of_token hscan (by simp [bare])]
    rfl

/-- A line further out closes the innermost level. -/
theorem lineTokens_unindent (h : Margin j rest) (hj : j ≤ k) (hl : l.column = 1) :
    ∃ l', lineTokens U (k + 1) rest l = bare .unindent l' :: lineTokens U k rest l := by
  cases h with
  | ending =>
    refine ⟨l, ?_⟩
    rw [lineTokens, lineTokens, Scanner.stream_of_end, Scanner.stream_of_end, margins]
    rfl
  | @line _ first rest hblank =>
    have hskip := skip_spaces (4 * j) hblank l
    have hscan := Scanner.scan_shift (U := U) (k := .unindent) (m := ⟨margins k, true⟩)
      (s := ⟨⟨List.replicate (4 * j) (.char ' ') ++ first :: rest, l⟩, ⟨margins (k + 1), true⟩⟩) rfl
      (by rw [hskip]; simp)
      (by
        rw [hskip, hl]
        simp only [Layout.shift?, Layout.width, headD_margins]
        rw [if_neg (by omega), if_pos (by omega), if_neg]
        · rfl
        · rintro ⟨hne, hnot⟩
          refine hnot ?_
          rw [show 1 + 4 * j - 1 = 4 * j by omega] at hne ⊢
          exact mem_margins (by omega) hj)
    have hblanks := Scanner.scan_blank (U := U)
      (s := ⟨⟨List.replicate (4 * j) (.char ' ') ++ first :: rest, l⟩, ⟨margins k, true⟩⟩) rfl
    refine ⟨⟨l.line, 1 + 4 * j⟩, ?_⟩
    rw [lineTokens, lineTokens, Scanner.stream_congr hblanks,
      Scanner.stream_of_token hscan (by simp [bare]), hskip, hl]

/-- A line that does not lie further in opens no level. -/
theorem head_lineTokens (h : Margin j rest) (hj : j ≤ k) (hl : l.column = 1) :
    ∀ t ∈ (lineTokens U k rest l).head?, t.kind ≠ .indent := by
  by_cases heq : j = k
  · subst heq
    cases h with
    | ending =>
      rw [lineTokens, margins, Scanner.stream_of_end]
      simp
    | @line _ first rest hblank =>
      have hscan := Scanner.scan_lexeme (U := U)
        (s := .inLine (margins j) ⟨first :: rest, ⟨l.line, 1 + 4 * j⟩⟩) rfl rfl hblank
      have hkind := isLayout_lexeme U first ⟨first :: rest, ⟨l.line, 1 + 4 * j⟩⟩
      rw [lineTokens_settled hblank hl,
        Scanner.stream_of_token hscan (Kind.ne_eof_of_content hkind)]
      intro t ht hindent
      cases ht
      rw [Scanner.inLine] at hindent
      rw [hindent] at hkind
      cases hkind
  · obtain ⟨k, rfl⟩ : ∃ k', k = k' + 1 := ⟨k - 1, by omega⟩
    have hle : j ≤ k := by omega
    obtain ⟨l', htokens⟩ := lineTokens_unindent (U := U) h hle hl
    rw [htokens]
    simp [bare]

/-- The end of a line leads to the start of the next one. -/
theorem tokens_newline (U : CharData) (k : Nat) (rest : List Piece) (l : Location) :
    ∃ t : Token, t.kind = .newline ∧
      ((Scanner.inLine (margins k) ⟨.char '\n' :: rest, l⟩).stream U).tokens =
        t :: lineTokens U k rest l.nextLine := by
  have hscan := Scanner.scan_newline (U := U)
    (s := .inLine (margins k) ⟨.char '\n' :: rest, l⟩) rfl rfl
  refine ⟨bare .newline l, rfl, ?_⟩
  rw [Scanner.stream_of_token hscan (by simp [bare])]
  rfl

end FirSyntax.Token
