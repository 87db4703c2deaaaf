import FirSyntax.Reading.Clause
import FirSyntax.Reading.Recovery

/-!
# Reading statements

A statement is recognized by its first token and read from the rest of its line; a procedure takes
the block beneath its header as well. A line that holds no statement is skipped with all that
belongs to it, so one fault costs one line of its level.
-/
namespace FirSyntax

open Token

namespace Statement

/-- The kinds of statement, as told by their first token. -/
inductive Lead where
  | consts
  | vars
  | procedure
  | returns
  | comment
  | imports
  | moduleName
deriving DecidableEq, Repr

/-- The statement that a token opens inside a block. -/
def Lead.inBlock? : Kind → Option Lead
  | .keyword .const => some .consts
  | .keyword .var => some .vars
  | .keyword .proc => some .procedure
  | .keyword .return => some .returns
  | .comment => some .comment
  | _ => none

/-- The statement that the current token opens at the top level. The word `module` is not reserved:
it opens a line only when an identifier follows. -/
def Lead.atTop? (r : Reading) : Option Lead :=
  match r.current.kind with
  | .keyword .const => some .consts
  | .keyword .var => some .vars
  | .keyword .proc => some .procedure
  | .keyword .import => some .imports
  | .comment => some .comment
  | .identifier =>
    if r.current.text = "module" ∧ r.upcoming.kind = .identifier then some .moduleName else none
  | _ => none

/-- The value that is returned, if there is one. -/
def readReturned (r : Reading) : Outcome (Option Expr) r.remaining :=
  if r.current.kind.opensExpression then
    (Expr.read r).andThen fun value after h => .done (some value) after h
  else .here none r

/-- The rest of a line, and the statement made of what was read of it and its comment. -/
def finish {n : Nat} (make : Option String → Statement) (r : Reading) (h : r.remaining ≤ n) :
    Outcome Statement n :=
  (r.finishLine.within h).andThen fun comment after h => .done (make comment) after h

/-- Past mismatched indentation, which is reported, and the line that it begins. -/
def skipMismatch (r : Reading) : Reading :=
  let next := (r.reportExpected (.token .unindent)).advance
  next.skipLine next.depth

theorem remaining_skipMismatch_lt {r : Reading} (h : r.current.kind ≠ .eof) :
    (skipMismatch r).remaining < r.remaining := by
  have hlt := Reading.remaining_advance_lt (r := r.reportExpected (.token .unindent)) (by simpa)
  have hle := Reading.remaining_skipLine_le (r.reportExpected (.token .unindent)).advance.depth
    (r.reportExpected (.token .unindent)).advance
  simp only [Reading.remaining_reportExpected] at hlt
  simp only [skipMismatch]
  omega

/-- Past a token that opens no statement, and the rest of its line. -/
def skipUnknown (cause : Cause) (depth : Nat) (r : Reading) : Reading :=
  (r.report r.current.location cause).advance.skipLine depth

theorem remaining_skipUnknown_lt {r : Reading} (cause : Cause) (depth : Nat)
    (h : r.current.kind ≠ .eof) : (skipUnknown cause depth r).remaining < r.remaining := by
  have hlt := Reading.remaining_advance_lt (r := r.report r.current.location cause) (by simpa)
  have hle := Reading.remaining_skipLine_le depth (r.report r.current.location cause).advance
  simp only [Reading.remaining_report] at hlt
  simp only [skipUnknown]
  omega

mutual

/-- A statement after its first token. A header without a block is kept, with an empty body. -/
def read (lead : Lead) (first : Token) (r : Reading) : Outcome Statement r.remaining :=
  match lead with
  | .consts => (Clause.readAll true r).andThen fun clauses after h =>
    finish (.consts clauses · first.location) after h
  | .vars => (Clause.readAll false r).andThen fun clauses after h =>
    finish (.vars clauses · first.location) after h
  | .returns => (readReturned r).andThen fun value after h =>
    finish (.returns value · first.location) after h
  | .imports => (r.separated .comma DottedName.read).andThen fun paths after h =>
    finish (.imports paths · first.location) after h
  | .moduleName => (DottedName.read r).andThen fun path after h =>
    finish (.moduleName path · first.location) after h
  | .comment => r.expectLineEnd.andThen fun _ after h =>
    .done (.empty (some first.text) first.location) after h
  | .procedure => (Header.read first.location r).andThen fun header after h =>
    if hindent : after.current.kind = .indent then
      have hlt := Reading.remaining_advance_lt (r := after) (by simp [hindent])
      ((readBlock after.advance.depth after.advance).within (by omega)).next fun body after h =>
      .done (.procedure header body) after h
    else
      (Step.done (.procedure header []) after h).reporting after.current.location
        (.expected (.token .indent) after.current)
termination_by r.remaining
decreasing_by omega

/-- The statements of a block whose lines have `depth` levels open, and the end of the block. -/
def readBlock (depth : Nat) (r : Reading) : Step (List Statement) r.remaining :=
  if hend : r.current.kind = .eof then ⟨[], r, Nat.le_refl _⟩
  else
    have hadvance := Reading.remaining_advance_lt hend
    match r.current.kind with
    | .unindent => ⟨[], r.advance, by omega⟩
    | .newline => (readBlock depth r.advance).within (by omega)
    | .indentMismatch =>
      have hmismatch := remaining_skipMismatch_lt hend
      if (skipMismatch r).depth < depth then ⟨[], skipMismatch r, by omega⟩
      else (readBlock depth (skipMismatch r)).within (by omega)
    | kind =>
      match Lead.inBlock? kind with
      | some lead =>
        match read lead r.current r.advance with
        | ⟨some statement, after, hline⟩ =>
          ((readBlock depth after).within (by omega)).next fun rest after h =>
          ⟨statement :: rest, after, h⟩
        | ⟨none, after, hline⟩ =>
          have hskip := Reading.remaining_skipLine_le depth after
          (readBlock depth (after.skipLine depth)).within (by omega)
      | none =>
        have hskip := remaining_skipUnknown_lt .noStatement depth hend
        (readBlock depth (skipUnknown .noStatement depth r)).within (by omega)
termination_by r.remaining
decreasing_by all_goals omega

end

/-- The statements of a file, behind those already read (`done`, the latest first), and the reading
at the end of the file. -/
def readAllFrom (done : List Statement) (r : Reading) : List Statement × Reading :=
  if hend : r.current.kind = .eof then (done.reverse, r)
  else
    have hadvance := Reading.remaining_advance_lt hend
    match r.current.kind with
    | .newline => readAllFrom done r.advance
    | .indentMismatch =>
      have hmismatch := remaining_skipMismatch_lt hend
      readAllFrom done (skipMismatch r)
    | .unindent =>
      have hunindent := Reading.remaining_advance_lt
        (r := r.report r.current.location .notAtTopLevel) (by simpa)
      have hreport := Reading.remaining_report r r.current.location .notAtTopLevel
      readAllFrom done (r.report r.current.location .notAtTopLevel).advance
    | _ =>
      match Lead.atTop? r with
      | some lead =>
        match read lead r.current r.advance with
        | ⟨some statement, after, hline⟩ =>
          have hstray := Reading.remaining_skipStray_le r.depth after
          readAllFrom (statement :: done) (after.skipStray r.depth)
        | ⟨none, after, hline⟩ =>
          have hskip := Reading.remaining_skipLine_le r.depth after
          have hstray := Reading.remaining_skipStray_le r.depth (after.skipLine r.depth)
          readAllFrom done ((after.skipLine r.depth).skipStray r.depth)
      | none =>
        have hskip := remaining_skipUnknown_lt .notAtTopLevel r.depth hend
        have hstray :=
          Reading.remaining_skipStray_le r.depth (skipUnknown .notAtTopLevel r.depth r)
        readAllFrom done ((skipUnknown .notAtTopLevel r.depth r).skipStray r.depth)
termination_by r.remaining
decreasing_by all_goals omega

/-- The statements of a file, and the reading at its end. -/
def readAll (r : Reading) : List Statement × Reading := readAllFrom [] r

end Statement

namespace SourceFile

/-- The file that bytes hold, and the diagnostics in the order of the source. -/
def parse (U : Unicode.CharData) (name directory : String) (bytes : List UInt8) :
    SourceFile × List Diagnostic :=
  let result := Statement.readAll (Reading.start (Stream.ofBytes U bytes))
  (⟨name, directory, result.1⟩, result.2.diagnostics)

/-- The file that a text holds, without a name. -/
def parseText (U : Unicode.CharData) (text : String) : SourceFile × List Diagnostic :=
  parse U "" "" (Source.utf8 text)

end SourceFile

end FirSyntax
