import FirSyntax.Proofs.Acceptance
import FirSyntax.Proofs.Reading.LastLineFile
import FirSyntax.Proofs.Source.Joining

/-!
# The last line need not be ended

A line terminator at the end of a source changes neither the file that the source holds nor what is
wrong with it. All it moves is the diagnostic for a header in the last line: its block is missed where
the next line would begin, which is the end of the source when the last line is not ended.
-/
namespace FirSyntax

open Token Source

namespace SourceFile

/-- A source whose last line is not ended holds the same file, locations included, as with a line feed
behind it. As many diagnostics are reported, at the same locations one by one and with the same causes
up to the token that was found; only the block that is missed at the end of the source is missed at the
start of the following line then. -/
theorem parse_newline (U : Unicode.CharData) (name directory : String) {bytes : List UInt8}
    (hlast : ¬ Terminated (ofBytes bytes)) :
    (parse U name directory (bytes ++ [0x0A])).1 = (parse U name directory bytes).1 ∧
      List.Forall₂ (Diagnostic.Corresponds (past Location.start (ofBytes bytes)))
        (parse U name directory bytes).2 (parse U name directory (bytes ++ [0x0A])).2 := by
  have hreturn : (ofBytes bytes).getLast? ≠ some (.char '\r') := by
    intro hreturn
    obtain ⟨front, hfront⟩ := List.getLast?_eq_some_iff.mp hreturn
    exact hlast ⟨front, _, hfront, by decide⟩
  obtain ⟨e, ts, hend, hfollows, hnil, hstream, hstream'⟩ := Stream.exists_tail U hreturn
  have hbytes : Stream.ofBytes U bytes = ⟨ts ++ e.closing e.last, e.last⟩ := hstream
  have hbytes' : Stream.ofBytes U (bytes ++ [0x0A]) = ⟨ts ++ e.ended, e.last.nextLine⟩ := by
    rw [Stream.ofBytes, ofBytes_newline]
    exact hstream'
  have hahead : Tail.Ahead e ts (Reading.start (Stream.ofBytes U bytes))
      (Reading.start (Stream.ofBytes U (bytes ++ [0x0A]))) := by
    rw [hbytes, hbytes']
    exact ⟨rfl, rfl, rfl, rfl, rfl, rfl, hfollows, .nil, by simp [Reading.start]⟩
  have halong : Tail.Along e (Reading.start (Stream.ofBytes U bytes))
      (Reading.start (Stream.ofBytes U (bytes ++ [0x0A]))) := by
    cases ts with
    | nil => exact .behind (hahead.behind (hnil rfl))
    | cons t ts => exact .ahead hahead
  obtain ⟨hbody, hreports⟩ := Statement.readAllFrom_along [] _ _ halong
    (Stream.laid_ofBytes U bytes) (.inl rfl)
  rw [hend] at hreports
  refine ⟨?_, List.forall₂_reverse_iff.mpr hreports⟩
  simp only [parse, Statement.readAll, hbody]

/-- A header at the end of a source, in a block that is still open, misses its block there, and where
the line is ended on the line below. -/
theorem parse_newline_header :
    ¬ Terminated (ofBytes (utf8 "proc p():\n  proc q():")) ∧
      (parse .standard "" "" (utf8 "proc p():\n  proc q():" ++ [0x0A])).1 =
        (parse .standard "" "" (utf8 "proc p():\n  proc q():")).1 ∧
      (parse .standard "" "" (utf8 "proc p():\n  proc q():")).2.map (·.location) = [⟨2, 12⟩] ∧
      (parse .standard "" "" (utf8 "proc p():\n  proc q():" ++ [0x0A])).2.map (·.location) =
        [⟨3, 1⟩] := by
  have hlast : ¬ Terminated (ofBytes (utf8 "proc p():\n  proc q():")) := by
    rintro ⟨front, last, hpieces, hterminator⟩
    have hcolon : (ofBytes (utf8 "proc p():\n  proc q():")).getLast? = some (.char ':') := by
      decide +kernel
    rw [hpieces, List.getLast?_concat] at hcolon
    cases hcolon
    cases hterminator
  have hend : past Location.start (ofBytes (utf8 "proc p():\n  proc q():")) = ⟨2, 12⟩ := by
    decide +kernel
  have hmissed : (parse .standard "" "" (utf8 "proc p():\n  proc q():")).2 =
      [⟨.expected (.token .indent) (bare .unindent ⟨2, 12⟩), ⟨2, 12⟩⟩] := by decide +kernel
  obtain ⟨hfile, hreports⟩ := parse_newline .standard "" "" hlast
  rw [hmissed, hend] at hreports
  obtain ⟨d, ds, hcorresponds, hrest, hds⟩ := List.forall₂_cons_left_iff.mp hreports
  cases hrest
  refine ⟨hlast, hfile, by rw [hmissed]; rfl, ?_⟩
  rw [hds]
  cases hcorresponds with
  | inner hcoincides => exact absurd ⟨_, rfl⟩ hcoincides.inner
  | block _ hbelow =>
    obtain ⟨found, rfl⟩ := hbelow
    rfl

end SourceFile

end FirSyntax
