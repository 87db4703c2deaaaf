import FirSyntax.Proofs.Reading.HeedsFile

/-!
# What a reading does in a file

Statements, blocks and files are read, and lines are passed over, by consuming tokens and by
reporting at tokens. This needs neither that the tokens are laid out nor that the source is free of
faults.
-/
namespace FirSyntax

open Token Grammar

/-- How a step finishes, told from its result. -/
theorem Step.Finishes.of_result {α : Type} {n : Nat} {s : Outcome α n} {r after : Reading}
    {Rule : List Token → α → Prop} {ok : α → Prop} {value : Option α} (hs : s.Finishes r Rule ok)
    (h : s.result = (value, after)) : Outcome.Ended r Rule ok value after := by
  obtain ⟨hvalue, hafter⟩ := Prod.mk.inj h
  exact hvalue ▸ hafter ▸ hs

namespace Reading

/-- `s` is reached from `r`, whatever tokens are consumed. -/
abbrev ComesTo (r s : Reading) : Prop := r.Reaches (fun _ => True) s

variable {r s : Reading}

theorem comesTo_advance (r : Reading) : r.ComesTo r.advance := .advance (.refl r) True.intro

theorem comesTo_report (r : Reading) (c : Cause) : r.ComesTo (r.report r.current.location c) :=
  .reportHere (.refl r) c

theorem Ends.comesTo (h : r.Ends s) : r.ComesTo s := by
  rw [h.2]
  split
  · exact comesTo_advance r
  · exact .refl r

/-- To heed tokens is to consume them and to report. -/
theorem Heeds.comesTo (h : r.Heeds s) : r.ComesTo s := by
  induction h with
  | refl r => exact .refl r
  | advance _ _ ih => exact .advance ih True.intro
  | expected wanted _ ih => exact ih.reportHere _
  | fault c _ _ hsame _ _ ih ih' => exact .report c ih ih' hsame

theorem comesTo_skipLine (depth : Nat) (r : Reading) : r.ComesTo (r.skipLine depth) :=
  (skipLine_heeds depth r).comesTo

theorem comesTo_skipStray (depth : Nat) (r : Reading) : r.ComesTo (r.skipStray depth) :=
  (skipStray_heeds depth r).comesTo

end Reading

namespace Statement

open Reading

variable {r s : Reading} {depth : Nat} {added : Option Statement}

/-- A mismatch is reported before its line is passed over. -/
theorem comesTo_skipMismatch (r : Reading) :
    (r.reportExpected (.token .unindent)).ComesTo (skipMismatch r) :=
  (comesTo_advance _).trans (comesTo_skipLine _ _)

theorem comesTo_skipUnknown (cause : Cause) (depth : Nat) (r : Reading) :
    (r.report r.current.location cause).ComesTo (skipUnknown cause depth r) :=
  (comesTo_advance _).trans (comesTo_skipLine _ _)

theorem header_comesTo (location : Location) (r : Reading) :
    r.ComesTo (Header.read location r).after :=
  (Header.read_heeds location r).comesTo

theorem read_comesTo (lead : Lead) (first : Token) (r : Reading) :
    r.ComesTo (read lead first r).after :=
  (read_heeds lead first r).comesTo

theorem BlockEnd.comesTo (h : BlockEnd depth r s) : r.ComesTo s := h.heeds.comesTo

theorem BlockTurn.comesTo (hturn : BlockTurn depth r added s) : r.ComesTo s := hturn.heeds.comesTo

theorem FileTurn.comesTo (hturn : FileTurn r added s) : r.ComesTo s := hturn.heeds.comesTo

theorem readAllFrom_comesTo (done : List Statement) (r : Reading) :
    r.ComesTo (readAllFrom done r).2 :=
  (readAllFrom_heeds done r).comesTo

end Statement

end FirSyntax
