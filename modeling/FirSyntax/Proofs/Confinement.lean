import FirSyntax.Proofs.Diagnostics
import FirSyntax.Proofs.Reading.BrokenLine
import FirSyntax.Proofs.Unicode.Blank

/-!
# A broken line stays confined

In a source without diagnostics, whatever the line of a statement is replaced by, nothing but that
line is lost. The tokens around the line are the same, so what is around the statement in the
derivation of the old source is read in the new one too; the new line is read in one turn between.
-/
namespace FirSyntax

open Token Grammar Source

variable {U : Unicode.CharData} {head old new back : List UInt8} {margin : String}

/-- A statement is located at its first token. -/
theorem Grammar.IsStatement.exists_first {strict : Bool} {place : Place} {ts rest : List Token}
    {s : Statement} (h : IsStatement strict place ts s rest) :
    ∃ t us, ts = t :: us ∧ t.kind.isLayout = false ∧ s.location = t.location := by
  cases h with
  | line hs =>
    cases hs with
    | consts ht | vars ht | returns ht | comment ht | imports ht | moduleName ht =>
      exact ⟨_, _, rfl, by rw [ht]; rfl, rfl⟩
  | procedure hheading | headerAlone _ hheading =>
    obtain ⟨p, hs, rfl, hp, hlocation⟩ := Statement.isHeading_cons hheading
    exact ⟨p, _, rfl, by rw [hp]; rfl, hlocation⟩

/-- Sources that differ in the content of one line have the same tokens around it. -/
theorem Token.Stream.hasLine_withLine (hU : U.BlanksApart) (hhead : StartsLine head)
    (hmargin : IsMargin margin) (hold : IsContent old) (hnew : IsContent new)
    (hback : BreaksLine back) :
    ∃ before first others tail after first' others' tail' after',
      (Stream.ofBytes U (withLine head margin old back)).HasLine (contentPlace head margin)
        before first others tail after ∧
      (Stream.ofBytes U (withLine head margin new back)).HasLine (contentPlace head margin)
        before first' others' tail' after' ∧ Twin after after' := by
  obtain ⟨before, behind, hlines⟩ :=
    Stream.exists_hasLine hU hhead.terminated hmargin.pieces (decode back)
  obtain ⟨first, others, tail, after, hline, htwin⟩ :=
    hlines (decode old) hold.nonempty hold.onLine hold.atBlank
  obtain ⟨first', others', tail', after', hline', htwin'⟩ :=
    hlines (decode new) hnew.nonempty hnew.onLine hnew.atBlank
  rw [← ofBytes_withLine hhead hmargin hold hback, List.length_map] at hline
  rw [← ofBytes_withLine hhead hmargin hnew hback, List.length_map] at hline'
  exact ⟨before, first, others, tail, after, first', others', tail', after', hline, hline',
    htwin.symm.trans htwin'⟩

/-- What stands in front of the statement of a line, behind it and around it. -/
theorem Grammar.around_of_hasLine {stream : Stream} {location : Location} {body : List Statement}
    {before others tail after : List Token} {first : Token} {s : Statement}
    (hfile : IsFile true stream.tokens body)
    (hline : stream.HasLine location before first others tail after) (hs : s.Within body)
    (hsingle : s.header? = none) (hlocation : s.location.line = location.line) :
    Around s after .file before body [] := by
  obtain ⟨us, xs, rest, place, htokens, hstatement, haround⟩ := found_of_within hs hfile.sequence
  obtain ⟨x, xs, rfl, hx, hfirst⟩ := hstatement.exists_first
  obtain ⟨rfl, hxs⟩ := hline.eq_of_line htokens hx haround.getLast_isLayout (hfirst ▸ hlocation)
  rw [hxs] at hstatement
  obtain rfl := Statement.after_of_isStatement hstatement hsingle hline.inside hline.ends
  exact haround

namespace SourceFile

/-- The line whose content begins at `location` is a complete header. It adds a procedure without a
body, and the only diagnostic asks for indentation at the token behind the line. -/
inductive HeaderAlone (stream : Stream) (location : Location) :
    Option Statement → List Diagnostic → Prop where
  | intro {before hs cs newline found later header} :
      stream.withEnd = before ++ (hs ++ cs ++ newline :: found :: later) → IsHeading hs header →
      IsRemark cs header.comment → newline.kind = .newline → header.location = location →
      HeaderAlone stream location (some (.procedure header []))
        [⟨.expected (.token .indent) found, found.location⟩]

/-- What is reported of a line lies on it, or it is a header alone. -/
theorem reported_of_confined {stream : Stream} {location : Location}
    {before others tail after : List Token} {first : Token} {added : Option Statement} {r : Reading}
    (hline : stream.HasLine location before first others tail after)
    (h : Statement.Confined stream location (first :: others) tail after added r.reports) :
    (∀ s ∈ added, s.location = location) ∧
      ((∀ d ∈ r.diagnostics, d.location.line = location.line) ∨
        HeaderAlone stream location added r.diagnostics) := by
  rw [Reading.diagnostics]
  generalize r.reports = reports at h
  cases h with
  | onLine hadded hreports =>
    exact ⟨hadded, .inl fun d hd => hreports d (List.mem_reverse.mp hd)⟩
  | @headerAlone hs cs newline header hfirst hheading hremark hlocation htail hnewline =>
    obtain ⟨later, hlater⟩ := Stream.exists_withEnd_eq ⟨after, stream.ending⟩
    have hstream : stream.withEnd = before ++ (hs ++ cs ++
        newline :: Stream.head ⟨after, stream.ending⟩ :: later) := by
      rw [Stream.withEnd, hline.tokens, hfirst, htail, ← hlater, Stream.withEnd]
      simp only [List.append_assoc, List.cons_append]
    refine ⟨by simpa [Statement.location] using hlocation, .inr ?_⟩
    exact .intro hstream hheading hremark hnewline hlocation

/-- In a source without diagnostics, let a line hold a statement of one line, at whatever depth.
Whatever the content of that line is replaced by, all other statements stay as they are and where
they are, the line adds at most one statement, and it alone is reported; only when it is a complete
header, indentation is asked for behind it. -/
theorem parse_confined (hU : U.BlanksApart) (name directory : String) (hhead : StartsLine head)
    (hmargin : IsMargin margin) (hold : IsContent old) (hnew : IsContent new)
    (hback : BreaksLine back)
    (hclean : (parse U name directory (withLine head margin old back)).2 = []) {s : Statement}
    (hs : s.Within (parse U name directory (withLine head margin old back)).1.body)
    (hsingle : s.header? = none) (hline : s.location.line = (contentPlace head margin).line) :
    ∃ added, (∀ t ∈ added, t.location = contentPlace head margin) ∧
      s.Swapped added (parse U name directory (withLine head margin old back)).1.body
        (parse U name directory (withLine head margin new back)).1.body ∧
      ((∀ d ∈ (parse U name directory (withLine head margin new back)).2,
          d.location.line = (contentPlace head margin).line) ∨
        HeaderAlone (Stream.ofBytes U (withLine head margin new back)) (contentPlace head margin)
          added (parse U name directory (withLine head margin new back)).2) := by
  obtain ⟨before, first, others, tail, after, first', others', tail', after', hasLine, hasLine',
    htwin⟩ := Stream.hasLine_withLine hU hhead hmargin hold hnew hback
  have hfile := isFile_of_parse U name directory (withLine head margin old back) hclean
  have haround := around_of_hasLine hfile hasLine hs hsingle hline
  have hcontent : (leading (first' :: others' ++ tail')).isLayout = false :=
    (hasLine'.inside first' List.mem_cons_self).1
  have hstream : (Reading.start (Stream.ofBytes U (withLine head margin new back))).stream =
      ⟨before ++ (first' :: others' ++ tail'),
        (Stream.ofBytes U (withLine head margin new back)).ending⟩ := by
    rw [← hasLine'.tokens]
    rfl
  obtain ⟨added, body, t, hrun, hswapped, hrest, hconfined⟩ :=
    Statement.run_around (Statement.turnsTo_line hasLine') hcontent htwin haround rfl
      (Reading.start (Stream.ofBytes U (withLine head margin new back))) hstream rfl
  have heof : t.current.kind = .eof := by
    rw [Reading.kind_current, hrest.of_nil]
    rfl
  have hparse : parse U name directory (withLine head margin new back) =
      (⟨name, directory, body⟩, t.diagnostics) := by
    rw [parse, Statement.readAll, hrun.readAllFrom_eq, Statement.readAllFrom_eof _ heof]
    simp
  obtain ⟨hadded, hreported⟩ := reported_of_confined hasLine' hconfined
  rw [hparse]
  exact ⟨added, hadded, hswapped, hreported⟩

/-- A procedure that returns a number, as it is derived. -/
theorem isFile_returned :
    IsFile true (Stream.ofBytes .standard (utf8 "proc f():\n  return 1\n")).tokens
      [.procedure ⟨⟨"f", ⟨1, 6⟩⟩, [], .unspecified, none, ⟨1, 1⟩⟩
        [.returns (some (.int 1 ⟨2, 10⟩)) none ⟨2, 3⟩]] := by
  have hheading : IsHeading [⟨.keyword .proc, "proc", ⟨1, 1⟩⟩, ⟨.identifier, "f", ⟨1, 6⟩⟩,
      ⟨.punctuation .leftParen, "(", ⟨1, 7⟩⟩, ⟨.punctuation .rightParen, ")", ⟨1, 8⟩⟩,
      ⟨.punctuation .colon, ":", ⟨1, 9⟩⟩]
      ⟨⟨"f", ⟨1, 6⟩⟩, [], .unspecified, none, ⟨1, 1⟩⟩ :=
    .intro rfl (.intro rfl) rfl .none rfl rfl .absent
  have hvalue : IsExpr .sum [⟨.integer, "1", ⟨2, 10⟩⟩] (.int 1 ⟨2, 10⟩) :=
    .ofProduct (.ofPrimary (.ofAtom (.integer rfl)))
  have hreturns : IsStatement true .block ([⟨.keyword .return, "return", ⟨2, 3⟩⟩,
      ⟨.integer, "1", ⟨2, 10⟩⟩] ++ ([] ++ [bare .newline ⟨2, 11⟩, bare .unindent ⟨3, 1⟩]))
      (.returns (some (.int 1 ⟨2, 10⟩)) none ⟨2, 3⟩) [bare .unindent ⟨3, 1⟩] :=
    .line (.returns rfl (.given hvalue)) (.intro .absent (.newline rfl))
  have hblock := IsBlock.intro (i := bare .indent ⟨2, 3⟩) rfl (.one hreturns) rfl
  have hfile := IsFile.statement (.procedure hheading
    (.intro .absent (.newline (t := bare .newline ⟨1, 10⟩) rfl)) hblock) .nil
  have htokens : (Stream.ofBytes .standard (utf8 "proc f():\n  return 1\n")).tokens =
      [⟨.keyword .proc, "proc", ⟨1, 1⟩⟩, ⟨.identifier, "f", ⟨1, 6⟩⟩,
        ⟨.punctuation .leftParen, "(", ⟨1, 7⟩⟩, ⟨.punctuation .rightParen, ")", ⟨1, 8⟩⟩,
        ⟨.punctuation .colon, ":", ⟨1, 9⟩⟩, bare .newline ⟨1, 10⟩, bare .indent ⟨2, 3⟩,
        ⟨.keyword .return, "return", ⟨2, 3⟩⟩, ⟨.integer, "1", ⟨2, 10⟩⟩, bare .newline ⟨2, 11⟩,
        bare .unindent ⟨3, 1⟩] := by decide +kernel
  rw [htokens]
  exact hfile

/-- A value that cannot be read is lost with its line only. -/
theorem parse_confined_returned :
    ∃ added, (∀ t ∈ added, t.location = ⟨2, 3⟩) ∧
      (Statement.returns (some (.int 1 ⟨2, 10⟩)) none ⟨2, 3⟩).Swapped added
        (parse .standard "" "" (utf8 "proc f():\n  return 1\n")).1.body
        (parse .standard "" "" (utf8 "proc f():\n  return )\n")).1.body ∧
      ((∀ d ∈ (parse .standard "" "" (utf8 "proc f():\n  return )\n")).2, d.location.line = 2) ∨
        HeaderAlone (Stream.ofBytes .standard (utf8 "proc f():\n  return )\n")) ⟨2, 3⟩ added
          (parse .standard "" "" (utf8 "proc f():\n  return )\n")).2) := by
  have hold : withLine (utf8 "proc f():\n") "  " (utf8 "return 1") (utf8 "\n") =
      utf8 "proc f():\n  return 1\n" := by decide +kernel
  have hnew : withLine (utf8 "proc f():\n") "  " (utf8 "return )") (utf8 "\n") =
      utf8 "proc f():\n  return )\n" := by decide +kernel
  have hplace : contentPlace (utf8 "proc f():\n") "  " = ⟨2, 3⟩ := by decide +kernel
  have holdContent : IsContent (utf8 "return 1") :=
    isContent_of_head (c := 'r') (by decide +kernel) (by decide) (by decide +kernel)
  have hnewContent : IsContent (utf8 "return )") :=
    isContent_of_head (c := 'r') (by decide +kernel) (by decide) (by decide +kernel)
  obtain ⟨hparse, hclean⟩ := parse_of_isFile .standard "" "" _ isFile_returned.lax.1
  have hwithin : (Statement.returns (some (.int 1 ⟨2, 10⟩)) none ⟨2, 3⟩).Within
      (parse .standard "" "" (utf8 "proc f():\n  return 1\n")).1.body := by
    rw [hparse]
    exact .inside .here
  have hhead : StartsLine (utf8 "proc f():\n") :=
    .inr (.inr ⟨utf8 "proc f():", '\n', by decide +kernel, by decide⟩)
  have hback : BreaksLine (utf8 "\n") := .inr ⟨'\n', [], by decide +kernel, by decide⟩
  have hmargin : IsMargin "  " := by
    intro c hc
    have hspace : c = ' ' := List.eq_of_mem_replicate (n := 2) hc
    subst hspace
    exact ⟨by decide, rfl⟩
  rw [← hold] at hwithin hclean
  obtain ⟨added, hadded, hswapped, hreported⟩ := parse_confined Unicode.CharData.blanksApart_standard "" ""
    hhead hmargin holdContent hnewContent hback (hclean.mpr isFile_returned.lax.2) hwithin rfl
    (by rw [hplace]; rfl)
  rw [hplace] at hadded
  rw [hold, hnew] at hswapped
  rw [hnew, hplace] at hreported
  exact ⟨added, hadded, hswapped, hreported⟩

end SourceFile

end FirSyntax
