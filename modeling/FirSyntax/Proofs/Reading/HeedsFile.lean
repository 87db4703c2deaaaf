import FirSyntax.Proofs.Reading.Heeds
import FirSyntax.Proofs.Reading.Turns

/-!
# How the reading of a file heeds its tokens

What recovery passes over is heeded as well, and so is every statement, in a block or at the top.
-/
namespace FirSyntax

open Token Grammar

variable {r : Reading}

/-! ## Recovery -/

namespace Reading

variable {s : Reading} {depth : Nat}

theorem SkipEnd.heeds (h : SkipEnd depth r s) : r.Heeds s := by
  cases h with
  | eof | outside | mismatch => exact .refl r
  | newline hk | unindent hk => exact heeds_advance_of_eq hk (by decide)

theorem SkipTurn.heeds (h : SkipTurn depth r s) : r.Heeds s := by
  cases h with
  | newline hk | unindent hk => exact heeds_advance_of_eq hk (by decide)
  | mismatch => exact heeds_reported _ r
  | further _ _ _ hmismatch => exact heeds_advance hmismatch

theorem skipLine_heeds (depth : Nat) (r : Reading) : r.Heeds (r.skipLine depth) := by
  rcases skip_cases depth r with ⟨s, hend⟩ | ⟨s, hturn⟩
  · rw [hend.skipLine_eq]
    exact hend.heeds
  · have hlt := hturn.remaining_lt
    rw [hturn.skipLine_eq]
    exact hturn.heeds.trans (skipLine_heeds depth s)
termination_by r.remaining

theorem skipStray_heeds (depth : Nat) (r : Reading) : r.Heeds (r.skipStray depth) := by
  unfold skipStray
  split
  · next hstray => exact heeds_advance_of_eq hstray.2 (by decide)
  · exact .refl r

end Reading

/-! ## Statements -/

namespace Statement

open Reading

variable {s : Reading} {depth : Nat} {added : Option Statement}

theorem skipMismatch_heeds (r : Reading) : r.Heeds (skipMismatch r) :=
  (heeds_reported _ r).trans (skipLine_heeds _ _)

theorem skipUnknown_heeds {cause : Cause} (hcause : cause.found? = none) (depth : Nat)
    (h : r.current.kind ≠ .indentMismatch) : r.Heeds (skipUnknown cause depth r) := by
  have hreport := heeds_fault cause h hcause
  have hadvance := heeds_advance (r := r.report r.current.location cause) (by rwa [current_report])
  exact (hreport.trans hadvance).trans (skipLine_heeds depth _)

theorem readReturned_heeds (r : Reading) : r.Heeds (readReturned r).after := by
  unfold readReturned
  split
  · exact Step.heeds_andThen (Expr.read_heeds r) fun _ after _ => .refl after
  · exact .refl r

theorem finish_heeds (make : Option String → Statement) {n : Nat} (r : Reading)
    (h : r.remaining ≤ n) : r.Heeds (finish make r h).after :=
  Step.heeds_andThen (finishLine_heeds r) fun _ after _ => .refl after

theorem read_line_heeds {lead : Lead} (hlead : lead ≠ .procedure) (first : Token) (r : Reading) :
    r.Heeds (read lead first r).after := by
  rw [read.eq_def]
  cases lead with
  | procedure => exact absurd rfl hlead
  | consts | vars => exact Step.heeds_andThen (Clause.readAll_heeds _ r) fun _ => finish_heeds _
  | returns => exact Step.heeds_andThen (readReturned_heeds r) fun _ => finish_heeds _
  | imports =>
    exact Step.heeds_andThen (separated_heeds DottedName.read_heeds r) fun _ => finish_heeds _
  | moduleName => exact Step.heeds_andThen (DottedName.read_heeds r) fun _ => finish_heeds _
  | comment => exact Step.heeds_andThen (expectLineEnd_heeds r) fun _ after _ => .refl after

theorem BlockEnd.heeds (h : BlockEnd depth r s) : r.Heeds s := by
  cases h with
  | eof => exact .refl r
  | unindent hk => exact heeds_advance_of_eq hk (by decide)
  | mismatch => exact skipMismatch_heeds r

theorem Lead.ne_mismatch_of_inBlock {lead : Lead} (h : inBlock? r.current.kind = some lead) :
    r.current.kind ≠ .indentMismatch :=
  (ne_layout_of_inBlock h).2.2.1

theorem BlockTurn.heeds_of_read (hturn : BlockTurn depth r added s)
    (hread : ∀ lead first, r.advance.Heeds (read lead first r.advance).after) : r.Heeds s := by
  cases hturn with
  | newline hk => exact heeds_advance_of_eq hk (by decide)
  | mismatch => exact skipMismatch_heeds r
  | unknown _ _ _ hmismatch => exact skipUnknown_heeds rfl depth hmismatch
  | @statement lead statement after hlead hresult =>
    have hafter := hread lead r.current
    rw [(Prod.mk.inj hresult).2] at hafter
    exact (heeds_advance (Lead.ne_mismatch_of_inBlock hlead)).trans hafter
  | @failure lead after hlead hresult =>
    have hafter := hread lead r.current
    rw [(Prod.mk.inj hresult).2] at hafter
    exact ((heeds_advance (Lead.ne_mismatch_of_inBlock hlead)).trans hafter).trans
      (skipLine_heeds depth after)

mutual

theorem read_heeds (lead : Lead) (first : Token) (r : Reading) :
    r.Heeds (read lead first r).after := by
  by_cases hlead : lead = .procedure
  · subst hlead
    have hresult := read_procedure first r
    have hheader := Header.read_heeds first.location r
    cases hread : Header.read first.location r with
    | mk value after hle =>
      rw [hread] at hresult hheader
      cases value with
      | none =>
        rw [(Prod.mk.inj hresult).2]
        exact hheader
      | some header =>
        simp only [Step.result] at hresult
        split at hresult
        · next hindent =>
          have hlt := remaining_advance_lt (r := after) (by simp [hindent])
          rw [(Prod.mk.inj hresult).2]
          exact (hheader.trans (heeds_advance_of_eq hindent (by decide))).trans
            (readBlock_heeds after.advance.depth after.advance)
        · rw [(Prod.mk.inj hresult).2]
          exact .expected _ hheader
  · exact read_line_heeds hlead first r
termination_by r.remaining
decreasing_by omega

theorem readBlock_heeds (depth : Nat) (r : Reading) : r.Heeds (readBlock depth r).after := by
  rcases exists_blockTurn depth r with ⟨s, hstop⟩ | ⟨added, s, hturn⟩
  · rw [(Prod.mk.inj hstop.result).2]
    exact hstop.heeds
  · have hlt := hturn.remaining_lt
    have hsmall := remaining_advance_lt hturn.ne_eof
    rw [(Prod.mk.inj hturn.result).2]
    exact (hturn.heeds_of_read fun lead first => read_heeds lead first r.advance).trans
      (readBlock_heeds depth s)
termination_by r.remaining
decreasing_by all_goals omega

end

theorem BlockTurn.heeds (hturn : BlockTurn depth r added s) : r.Heeds s :=
  hturn.heeds_of_read fun lead first => read_heeds lead first r.advance

theorem FileTurn.heeds (hturn : FileTurn r added s) : r.Heeds s := by
  have hread (lead : Lead) (hlead : Lead.atTop? r = some lead) :
      r.Heeds (read lead r.current r.advance).after :=
    (heeds_advance (Lead.ne_layout_of_atTop hlead).2.1).trans (read_heeds lead r.current r.advance)
  cases hturn with
  | newline hk => exact heeds_advance_of_eq hk (by decide)
  | mismatch => exact skipMismatch_heeds r
  | unindent hk =>
    refine (heeds_fault .notAtTopLevel (by simp [hk]) rfl).trans (heeds_advance ?_)
    simp [hk]
  | unknown _ _ _ hmismatch =>
    exact (skipUnknown_heeds rfl _ hmismatch).trans (skipStray_heeds _ _)
  | @statement lead statement after hlead hresult =>
    have hafter := hread lead hlead
    rw [(Prod.mk.inj hresult).2] at hafter
    exact hafter.trans (skipStray_heeds _ after)
  | @failure lead after hlead hresult =>
    have hafter := hread lead hlead
    rw [(Prod.mk.inj hresult).2] at hafter
    exact (hafter.trans (skipLine_heeds _ after)).trans (skipStray_heeds _ _)

theorem readAllFrom_heeds (done : List Statement) (r : Reading) :
    r.Heeds (readAllFrom done r).2 := by
  by_cases heof : r.current.kind = .eof
  · rw [readAllFrom_eof done heof]
    exact .refl r
  · obtain ⟨added, s, hturn⟩ := exists_fileTurn heof
    have hlt := hturn.remaining_lt
    rw [hturn.readAllFrom_eq]
    exact hturn.heeds.trans (readAllFrom_heeds _ s)
termination_by r.remaining

end Statement

end FirSyntax
