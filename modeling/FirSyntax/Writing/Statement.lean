import FirSyntax.Tree.Statement
import FirSyntax.Writing.Clause

/-!
# Programs as text

The canonical form of a tree: four spaces for each level, one statement a line, two spaces before
a comment at the end of a line.
-/
namespace FirSyntax

namespace Statement

def indentation (level : Nat) : String := String.ofList (List.replicate (4 * level) ' ')

/-- A comment of the given text. -/
def commentMark (text : String) : String := if text = "" then "#" else "# " ++ text

/-- A comment behind a statement, if there is one. -/
def trailing : Option String → String
  | some text => "  " ++ commentMark text
  | none => ""

/-- A line with its indentation, comment and terminator. -/
def line (level : Nat) (content : String) (comment : Option String) : String :=
  indentation level ++ content ++ trailing comment ++ "\n"

def writeReturned : Option Expr → String
  | some value => " " ++ value.write
  | none => ""

end Statement

namespace Header

def writeResult (header : Header) : String :=
  if header.result.isSpecified then " " ++ header.result.write else ""

def write (header : Header) : String :=
  "proc " ++ header.name.text ++ "(" ++ Clause.writeAll header.parameters ++ "):" ++
    header.writeResult

end Header

namespace Statement

mutual

/-- The lines of a statement, each with its terminator. -/
def lines (level : Nat) : Statement → List String
  | empty (some text) _ => [indentation level ++ commentMark text ++ "\n"]
  | empty none _ => ["\n"]
  | returns value comment _ => [line level ("return" ++ writeReturned value) comment]
  | consts clauses comment _ => [line level ("const " ++ Clause.writeAll clauses) comment]
  | vars clauses comment _ => [line level ("var " ++ Clause.writeAll clauses) comment]
  | imports paths comment _ =>
    [line level ("import " ++ ", ".intercalate (paths.map (·.write))) comment]
  | moduleName path comment _ => [line level ("module " ++ path.write) comment]
  | procedure header body => line level header.write header.comment :: linesOfAll (level + 1) body

/-- The lines of statements of one level. -/
def linesOfAll (level : Nat) : List Statement → List String
  | [] => []
  | statement :: rest => lines level statement ++ linesOfAll level rest

end

/-- A statement at a level of indentation. -/
def write (level : Nat) (statement : Statement) : String := String.join (lines level statement)

/-- Statements of one level, one after another. -/
def writeAll (level : Nat) (statements : List Statement) : String :=
  String.join (linesOfAll level statements)

end Statement

/-- The canonical text of a file. -/
def SourceFile.write (file : SourceFile) : String := Statement.writeAll 0 file.body

end FirSyntax
