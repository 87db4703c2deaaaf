/-!
# Help

What can be asked about the command line and the page that answers: a description, the usage, and
tables whose second column begins two spaces after the widest entry of the first.
-/
namespace FirSyntax.Project

/-- The two commands that take arguments. -/
inductive Verb where
  | build
  | format
deriving DecidableEq, Repr

/-- What a page of help is about. -/
inductive HelpTopic where
  | program
  | verb (v : Verb)
  | help
deriving DecidableEq, Repr

namespace HelpTopic

/-- The topic of the words after `help`. Only the program has parts that can be named, so at most
one word is taken. -/
def ofWords? : List String → Option HelpTopic
  | [] => some program
  | ["build"] => some (verb .build)
  | ["format"] => some (verb .format)
  | ["help"] => some help
  | _ => none

def description : HelpTopic → String
  | program => "Fir compiler front end"
  | verb .build =>
    "Parse a .fir file, or every .fir file under a directory, and report syntax errors"
  | verb .format => "Print the canonical form of a .fir file"
  | help => "Print this message or the help of the given subcommand(s)"

/-- How the command line goes on after the name of the program. -/
def usage : HelpTopic → String
  | program => "<COMMAND>"
  | verb .build => "build [OPTIONS] <PATH>"
  | verb .format => "format [OPTIONS] <PATH>"
  | help => "help [COMMAND]..."

/-- A table of a page. -/
structure Table where
  title : String
  rows : List (String × String)
deriving DecidableEq, Repr

/-- The tables of a page, in the order in which they are shown. -/
def tables : HelpTopic → List Table
  | program =>
    [⟨"Commands",
      [("build", (verb .build).description), ("format", (verb .format).description),
        ("help", help.description)]⟩,
      ⟨"Options", [("-h, --help", "Print help"), ("-V, --version", "Print version")]⟩]
  | verb .build =>
    [⟨"Arguments", [("<PATH>", "")]⟩,
      ⟨"Options",
        [("-j, --jobs <JOBS>", "Number of worker threads"), ("-h, --help", "Print help")]⟩]
  | verb .format =>
    [⟨"Arguments", [("<PATH>", "")]⟩,
      ⟨"Options",
        [("    --check", "Only report whether the file is already formatted"),
          ("-h, --help", "Print help")]⟩]
  | help => [⟨"Arguments", [("[COMMAND]...", "Print help for the subcommand(s)")]⟩]

/-- The length of the longest entry of the first column. -/
def Table.width (table : Table) : Nat :=
  table.rows.foldl (fun w row => max w row.1.length) 0

/-- A text filled up with spaces. -/
def padded (width : Nat) (text : String) : String :=
  text ++ String.ofList (List.replicate (width - text.length) ' ')

def Table.write (table : Table) : String :=
  table.title ++ ":\n" ++
    String.join (table.rows.map fun row =>
      "  " ++ padded table.width row.1 ++ "  " ++ row.2 ++ "\n")

/-- The page about a topic. -/
def page (topic : HelpTopic) : String :=
  topic.description ++ "\n\nUsage: firc " ++ topic.usage ++ "\n" ++
    String.join (topic.tables.map fun table => "\n" ++ table.write)

end HelpTopic

end FirSyntax.Project
