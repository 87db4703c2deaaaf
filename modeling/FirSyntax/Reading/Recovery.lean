import FirSyntax.Reading.Basic

/-!
# Recovery

After a fault the rest of the line is passed over, together with the blocks opened beneath it, so
that reading goes on at the next line of the same level. Mismatched indentation met on the way is
reported, except where it would close the level itself: that line is left to the caller.
-/
namespace FirSyntax.Reading

open Token

/-- Past the rest of a line that began with `depth` levels open. -/
def skipLine (depth : Nat) (r : Reading) : Reading :=
  if hend : r.current.kind = .eof then r
  else
    have hlt := remaining_advance_lt hend
    have hlt' : (r.reportExpected (.token .unindent)).advance.remaining < r.remaining := by
      simpa using remaining_advance_lt (r := r.reportExpected (.token .unindent)) (by simpa)
    match r.current.kind with
    | .newline =>
      if r.depth = depth ∧ r.advance.current.kind ≠ .indent then r.advance
      else skipLine depth r.advance
    | .unindent =>
      if r.depth ≤ depth then r
      else if r.advance.depth = depth then r.advance
      else skipLine depth r.advance
    | .indentMismatch =>
      if r.depth ≤ depth + 1 then r
      else skipLine depth (r.reportExpected (.token .unindent)).advance
    | _ => skipLine depth r.advance
termination_by r.remaining

theorem remaining_skipLine_le (depth : Nat) (r : Reading) :
    (r.skipLine depth).remaining ≤ r.remaining := by
  fun_induction skipLine depth r with
  | case1 | case4 | case7 => exact Nat.le_refl _
  | case2 | case5 => exact remaining_advance_le _
  | case3 | case6 | case8 | case9 => omega

/-- Past an un-indentation that closes no level of the file. -/
def skipStray (depth : Nat) (r : Reading) : Reading :=
  if r.depth = depth ∧ r.current.kind = .unindent then r.advance else r

theorem remaining_skipStray_le (depth : Nat) (r : Reading) :
    (r.skipStray depth).remaining ≤ r.remaining := by
  unfold skipStray
  split
  · exact remaining_advance_le r
  · exact Nat.le_refl _

end FirSyntax.Reading
