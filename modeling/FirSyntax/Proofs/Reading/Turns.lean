import FirSyntax.Reading.Statement

/-!
# Turns of the loops

The statements of a file and of a block are read in turns. A turn starts at the first token of a
line, adds at most one statement, and ends where the next turn starts; every turn takes a token.
What is shown of single turns holds of whole files and blocks by induction.
-/
namespace FirSyntax

open Token

/-- What a step gives, without its bound. -/
def Step.result {α : Type} {n : Nat} (s : Step α n) : α × Reading := (s.value, s.after)

/-! ## Passing over a line -/

namespace Reading

variable {r : Reading}

theorem skipLine_eof (h : r.current.kind = .eof) (depth : Nat) : r.skipLine depth = r := by
  rw [skipLine, dif_pos h]

theorem skipLine_newline (h : r.current.kind = .newline) (depth : Nat) :
    r.skipLine depth =
      if r.depth = depth ∧ r.advance.current.kind ≠ .indent then r.advance
      else r.advance.skipLine depth := by
  have hne : r.current.kind ≠ .eof := by simp [h]
  rw [skipLine, dif_neg hne, h]

theorem skipLine_unindent (h : r.current.kind = .unindent) (depth : Nat) :
    r.skipLine depth =
      if r.depth ≤ depth then r
      else if r.advance.depth = depth then r.advance else r.advance.skipLine depth := by
  have hne : r.current.kind ≠ .eof := by simp [h]
  rw [skipLine, dif_neg hne, h]

theorem skipLine_mismatch (h : r.current.kind = .indentMismatch) (depth : Nat) :
    r.skipLine depth =
      if r.depth ≤ depth + 1 then r
      else (r.reportExpected (.token .unindent)).advance.skipLine depth := by
  have hne : r.current.kind ≠ .eof := by simp [h]
  rw [skipLine, dif_neg hne, h]

theorem skipLine_further (hne : r.current.kind ≠ .eof) (hnewline : r.current.kind ≠ .newline)
    (hunindent : r.current.kind ≠ .unindent) (hmismatch : r.current.kind ≠ .indentMismatch)
    (depth : Nat) : r.skipLine depth = r.advance.skipLine depth := by
  rw [skipLine, dif_neg hne]
  split <;> first | contradiction | rfl

variable {s : Reading} {depth : Nat}

/-- Where a line that was passed over has come to its end. In front of a token that closes its level,
and of a mismatch that does, nothing is consumed. -/
inductive SkipEnd (depth : Nat) (r : Reading) : Reading → Prop where
  | eof : r.current.kind = .eof → SkipEnd depth r r
  | newline : r.current.kind = .newline → r.depth = depth → r.advance.current.kind ≠ .indent →
      SkipEnd depth r r.advance
  | outside : r.current.kind = .unindent → r.depth ≤ depth → SkipEnd depth r r
  | unindent : r.current.kind = .unindent → depth < r.depth → r.advance.depth = depth →
      SkipEnd depth r r.advance
  | mismatch : r.current.kind = .indentMismatch → r.depth ≤ depth + 1 → SkipEnd depth r r

/-- One token of a line that is passed over, or of the blocks beneath it. -/
inductive SkipTurn (depth : Nat) (r : Reading) : Reading → Prop where
  | newline : r.current.kind = .newline → (r.depth = depth → r.advance.current.kind = .indent) →
      SkipTurn depth r r.advance
  | unindent : r.current.kind = .unindent → depth < r.depth → r.advance.depth ≠ depth →
      SkipTurn depth r r.advance
  | mismatch : r.current.kind = .indentMismatch → depth + 1 < r.depth →
      SkipTurn depth r (r.reportExpected (.token .unindent)).advance
  | further : r.current.kind ≠ .eof → r.current.kind ≠ .newline → r.current.kind ≠ .unindent →
      r.current.kind ≠ .indentMismatch → SkipTurn depth r r.advance

theorem SkipEnd.skipLine_eq (h : SkipEnd depth r s) : r.skipLine depth = s := by
  cases h with
  | eof hk => exact skipLine_eof hk depth
  | newline hk hdepth hindent => rw [skipLine_newline hk, if_pos ⟨hdepth, hindent⟩]
  | outside hk hle => rw [skipLine_unindent hk, if_pos hle]
  | unindent hk hlt hdepth =>
    rw [skipLine_unindent hk, if_neg (Nat.not_le_of_lt hlt), if_pos hdepth]
  | mismatch hk hle => rw [skipLine_mismatch hk, if_pos hle]

theorem SkipTurn.skipLine_eq (h : SkipTurn depth r s) : r.skipLine depth = s.skipLine depth := by
  cases h with
  | newline hk hindent =>
    rw [skipLine_newline hk, if_neg fun hend => hend.2 (hindent hend.1)]
  | unindent hk hlt hdepth =>
    rw [skipLine_unindent hk, if_neg (Nat.not_le_of_lt hlt), if_neg hdepth]
  | mismatch hk hlt => rw [skipLine_mismatch hk, if_neg (Nat.not_le_of_lt hlt)]
  | further hne hnewline hunindent hmismatch =>
    exact skipLine_further hne hnewline hunindent hmismatch depth

theorem SkipTurn.remaining_lt (h : SkipTurn depth r s) : s.remaining < r.remaining := by
  cases h with
  | newline hk | unindent hk => exact remaining_advance_lt (by simp [hk])
  | further hne => exact remaining_advance_lt hne
  | mismatch hk =>
    have hlt := remaining_advance_lt (r := r.reportExpected (.token .unindent)) (by simp [hk])
    rwa [remaining_reportExpected] at hlt

theorem skip_cases (depth : Nat) (r : Reading) :
    (∃ s, SkipEnd depth r s) ∨ ∃ s, SkipTurn depth r s := by
  by_cases heof : r.current.kind = .eof
  · exact .inl ⟨_, .eof heof⟩
  by_cases hnewline : r.current.kind = .newline
  · by_cases hend : r.depth = depth ∧ r.advance.current.kind ≠ .indent
    · exact .inl ⟨_, .newline hnewline hend.1 hend.2⟩
    · rw [not_and, Decidable.not_not] at hend
      exact .inr ⟨_, .newline hnewline hend⟩
  by_cases hunindent : r.current.kind = .unindent
  · rcases Nat.lt_or_ge depth r.depth with hlt | hle
    · by_cases hdepth : r.advance.depth = depth
      · exact .inl ⟨_, .unindent hunindent hlt hdepth⟩
      · exact .inr ⟨_, .unindent hunindent hlt hdepth⟩
    · exact .inl ⟨_, .outside hunindent hle⟩
  by_cases hmismatch : r.current.kind = .indentMismatch
  · rcases Nat.lt_or_ge (depth + 1) r.depth with hlt | hle
    · exact .inr ⟨_, .mismatch hmismatch hlt⟩
    · exact .inl ⟨_, .mismatch hmismatch hle⟩
  · exact .inr ⟨_, .further heof hnewline hunindent hmismatch⟩

end Reading

/-! ## One turn -/

namespace Statement

variable {r s : Reading} {depth : Nat}

/-- A procedure is read as its header and, when a level is opened beneath it, as the block there. -/
theorem read_procedure (first : Token) (r : Reading) :
    (read .procedure first r).result =
      match (Header.read first.location r).result with
      | (none, after) => (none, after)
      | (some header, after) =>
        if after.current.kind = .indent then
          (some (.procedure header (readBlock after.advance.depth after.advance).value),
            (readBlock after.advance.depth after.advance).after)
        else (some (.procedure header []), after.reportExpected (.token .indent)) := by
  rw [read]
  cases Header.read first.location r with
  | mk value after hle =>
    cases value with
    | none => rfl
    | some header =>
      simp only [Step.andThen, Step.result]
      split <;> rfl

/-- A turn at the top level: what is added to the file, and where the next turn starts. -/
inductive FileTurn (r : Reading) : Option Statement → Reading → Prop where
  | newline : r.current.kind = .newline → FileTurn r none r.advance
  | mismatch : r.current.kind = .indentMismatch → FileTurn r none (skipMismatch r)
  | unindent : r.current.kind = .unindent →
      FileTurn r none (r.report r.current.location .notAtTopLevel).advance
  | statement {lead statement after} : Lead.atTop? r = some lead →
      (read lead r.current r.advance).result = (some statement, after) →
      FileTurn r (some statement) (after.skipStray r.depth)
  | failure {lead after} : Lead.atTop? r = some lead →
      (read lead r.current r.advance).result = (none, after) →
      FileTurn r none ((after.skipLine r.depth).skipStray r.depth)
  | unknown : Lead.atTop? r = none → r.current.kind ≠ .eof → r.current.kind ≠ .newline →
      r.current.kind ≠ .indentMismatch → r.current.kind ≠ .unindent →
      FileTurn r none ((skipUnknown .notAtTopLevel r.depth r).skipStray r.depth)

theorem readAllFrom_eof (done : List Statement) (h : r.current.kind = .eof) :
    readAllFrom done r = (done.reverse, r) := by
  rw [readAllFrom, dif_pos h]

theorem Lead.ne_eof_of_atTop {lead : Lead} (h : atTop? r = some lead) : r.current.kind ≠ .eof := by
  intro hk
  simp [atTop?, hk] at h

theorem Lead.ne_layout_of_atTop {lead : Lead} (h : atTop? r = some lead) :
    r.current.kind ≠ .newline ∧ r.current.kind ≠ .indentMismatch ∧ r.current.kind ≠ .unindent := by
  refine ⟨?_, ?_, ?_⟩ <;> intro hk <;> simp [atTop?, hk] at h

namespace FileTurn

variable {added : Option Statement}

theorem ne_eof (h : FileTurn r added s) : r.current.kind ≠ .eof := by
  cases h with
  | newline hk | mismatch hk | unindent hk => simp [hk]
  | statement hlead | failure hlead => exact Lead.ne_eof_of_atTop hlead
  | unknown _ hne => exact hne

theorem remaining_lt (h : FileTurn r added s) : s.remaining < r.remaining := by
  have hadvance := Reading.remaining_advance_lt h.ne_eof
  cases h with
  | newline => exact hadvance
  | mismatch hk => exact remaining_skipMismatch_lt (by simp [hk])
  | unindent hk =>
    have := Reading.remaining_advance_lt (r := r.report r.current.location .notAtTopLevel)
      (by simp [hk])
    rwa [Reading.remaining_report] at this
  | @statement lead statement after hlead hread =>
    have hle := (read lead r.current r.advance).bounded
    rw [(Prod.mk.inj hread).2] at hle
    have := Reading.remaining_skipStray_le r.depth after
    omega
  | @failure lead after hlead hread =>
    have hle := (read lead r.current r.advance).bounded
    rw [(Prod.mk.inj hread).2] at hle
    have := Reading.remaining_skipLine_le r.depth after
    have := Reading.remaining_skipStray_le r.depth (after.skipLine r.depth)
    omega
  | unknown _ hne =>
    have := remaining_skipUnknown_lt .notAtTopLevel r.depth hne
    have := Reading.remaining_skipStray_le r.depth (skipUnknown .notAtTopLevel r.depth r)
    omega

/-- A turn and what comes after it. -/
theorem readAllFrom_eq (h : FileTurn r added s) (done : List Statement) :
    readAllFrom done r = readAllFrom (added.toList ++ done) s := by
  rw [readAllFrom, dif_neg h.ne_eof]
  cases h with
  | newline hk | mismatch hk | unindent hk =>
    rw [hk]
    rfl
  | unknown hlead hne hnewline hmismatch hunindent =>
    split <;> first | contradiction | skip
    rw [hlead]
    rfl
  | @statement lead statement after hlead hread =>
    obtain ⟨hnewline, hmismatch, hunindent⟩ := Lead.ne_layout_of_atTop hlead
    cases hstep : read lead r.current r.advance with
    | mk value after' hle =>
      rw [hstep] at hread
      cases hread
      split <;> first | contradiction | skip
      simp only [hlead, hstep]
      rfl
  | @failure lead after hlead hread =>
    obtain ⟨hnewline, hmismatch, hunindent⟩ := Lead.ne_layout_of_atTop hlead
    cases hstep : read lead r.current r.advance with
    | mk value after' hle =>
      rw [hstep] at hread
      cases hread
      split <;> first | contradiction | skip
      simp only [hlead, hstep]
      rfl

end FileTurn

theorem exists_fileTurn (h : r.current.kind ≠ .eof) : ∃ added s, FileTurn r added s := by
  by_cases hnewline : r.current.kind = .newline
  · exact ⟨_, _, .newline hnewline⟩
  by_cases hmismatch : r.current.kind = .indentMismatch
  · exact ⟨_, _, .mismatch hmismatch⟩
  by_cases hunindent : r.current.kind = .unindent
  · exact ⟨_, _, .unindent hunindent⟩
  cases hlead : Lead.atTop? r with
  | none => exact ⟨_, _, .unknown hlead h hnewline hmismatch hunindent⟩
  | some lead =>
    cases hread : (read lead r.current r.advance).result with
    | mk value after =>
      cases value with
      | some statement => exact ⟨_, _, .statement hlead hread⟩
      | none => exact ⟨_, _, .failure hlead hread⟩

theorem kind_readAllFrom (done : List Statement) (r : Reading) :
    (readAllFrom done r).2.current.kind = .eof := by
  by_cases heof : r.current.kind = .eof
  · rw [readAllFrom_eof done heof]
    exact heof
  · obtain ⟨added, s, hturn⟩ := exists_fileTurn heof
    have hlt := hturn.remaining_lt
    rw [hturn.readAllFrom_eq]
    exact kind_readAllFrom _ s
termination_by r.remaining

/-- Where a block has come to its end, and where its reader stops then. -/
inductive BlockEnd (depth : Nat) (r : Reading) : Reading → Prop where
  | eof : r.current.kind = .eof → BlockEnd depth r r
  | unindent : r.current.kind = .unindent → BlockEnd depth r r.advance
  | mismatch : r.current.kind = .indentMismatch → (skipMismatch r).depth < depth →
      BlockEnd depth r (skipMismatch r)

/-- A turn in a block: what is added to it, and where the next turn starts. -/
inductive BlockTurn (depth : Nat) (r : Reading) : Option Statement → Reading → Prop where
  | newline : r.current.kind = .newline → BlockTurn depth r none r.advance
  | mismatch : r.current.kind = .indentMismatch → depth ≤ (skipMismatch r).depth →
      BlockTurn depth r none (skipMismatch r)
  | statement {lead statement after} : Lead.inBlock? r.current.kind = some lead →
      (read lead r.current r.advance).result = (some statement, after) →
      BlockTurn depth r (some statement) after
  | failure {lead after} : Lead.inBlock? r.current.kind = some lead →
      (read lead r.current r.advance).result = (none, after) →
      BlockTurn depth r none (after.skipLine depth)
  | unknown : Lead.inBlock? r.current.kind = none → r.current.kind ≠ .eof →
      r.current.kind ≠ .newline → r.current.kind ≠ .indentMismatch → r.current.kind ≠ .unindent →
      BlockTurn depth r none (skipUnknown .noStatement depth r)

theorem Lead.ne_layout_of_inBlock {k : Kind} {lead : Lead} (h : inBlock? k = some lead) :
    k ≠ .eof ∧ k ≠ .newline ∧ k ≠ .indentMismatch ∧ k ≠ .unindent := by
  refine ⟨?_, ?_, ?_, ?_⟩ <;> rintro rfl <;> cases h

theorem BlockEnd.result (h : BlockEnd depth r s) : (readBlock depth r).result = ([], s) := by
  cases h with
  | eof hk =>
    rw [readBlock, dif_pos hk]
    rfl
  | unindent hk =>
    have hne : r.current.kind ≠ .eof := by simp [hk]
    rw [readBlock, dif_neg hne, hk]
    rfl
  | mismatch hk hbelow =>
    have hne : r.current.kind ≠ .eof := by simp [hk]
    rw [readBlock, dif_neg hne, hk]
    simp only [if_pos hbelow]
    rfl

namespace BlockTurn

variable {added : Option Statement}

theorem ne_eof (h : BlockTurn depth r added s) : r.current.kind ≠ .eof := by
  cases h with
  | newline hk | mismatch hk => simp [hk]
  | statement hlead | failure hlead => exact (Lead.ne_layout_of_inBlock hlead).1
  | unknown _ hne => exact hne

theorem remaining_lt (h : BlockTurn depth r added s) : s.remaining < r.remaining := by
  have hadvance := Reading.remaining_advance_lt h.ne_eof
  cases h with
  | newline => exact hadvance
  | mismatch hk => exact remaining_skipMismatch_lt (by simp [hk])
  | @statement lead statement after hlead hread =>
    have hle := (read lead r.current r.advance).bounded
    rw [(Prod.mk.inj hread).2] at hle
    omega
  | @failure lead after hlead hread =>
    have hle := (read lead r.current r.advance).bounded
    rw [(Prod.mk.inj hread).2] at hle
    have := Reading.remaining_skipLine_le depth after
    omega
  | unknown _ hne => exact remaining_skipUnknown_lt .noStatement depth hne

/-- A turn and what comes after it. -/
theorem result (h : BlockTurn depth r added s) :
    (readBlock depth r).result =
      (added.toList ++ (readBlock depth s).value, (readBlock depth s).after) := by
  rw [readBlock, dif_neg h.ne_eof]
  cases h with
  | newline hk =>
    rw [hk]
    rfl
  | mismatch hk hnot =>
    rw [hk]
    simp only [if_neg (Nat.not_lt_of_le hnot)]
    rfl
  | unknown hlead hne hnewline hmismatch hunindent =>
    split <;> first | contradiction | skip
    rw [hlead]
    rfl
  | @statement lead statement after hlead hread =>
    obtain ⟨-, hnewline, hmismatch, hunindent⟩ := Lead.ne_layout_of_inBlock hlead
    cases hstep : read lead r.current r.advance with
    | mk value after' hle =>
      rw [hstep] at hread
      cases hread
      split <;> first | contradiction | skip
      simp only [hlead, hstep]
      rfl
  | @failure lead after hlead hread =>
    obtain ⟨-, hnewline, hmismatch, hunindent⟩ := Lead.ne_layout_of_inBlock hlead
    cases hstep : read lead r.current r.advance with
    | mk value after' hle =>
      rw [hstep] at hread
      cases hread
      split <;> first | contradiction | skip
      simp only [hlead, hstep]
      rfl

end BlockTurn

theorem exists_blockTurn (depth : Nat) (r : Reading) :
    (∃ s, BlockEnd depth r s) ∨ ∃ added s, BlockTurn depth r added s := by
  by_cases heof : r.current.kind = .eof
  · exact .inl ⟨_, .eof heof⟩
  by_cases hunindent : r.current.kind = .unindent
  · exact .inl ⟨_, .unindent hunindent⟩
  by_cases hnewline : r.current.kind = .newline
  · exact .inr ⟨_, _, .newline hnewline⟩
  by_cases hmismatch : r.current.kind = .indentMismatch
  · by_cases hbelow : (skipMismatch r).depth < depth
    · exact .inl ⟨_, .mismatch hmismatch hbelow⟩
    · exact .inr ⟨_, _, .mismatch hmismatch (Nat.le_of_not_lt hbelow)⟩
  cases hlead : Lead.inBlock? r.current.kind with
  | none => exact .inr ⟨_, _, .unknown hlead heof hnewline hmismatch hunindent⟩
  | some lead =>
    cases hread : (read lead r.current r.advance).result with
    | mk value after =>
      cases value with
      | some statement => exact .inr ⟨_, _, .statement hlead hread⟩
      | none => exact .inr ⟨_, _, .failure hlead hread⟩

end Statement

end FirSyntax
