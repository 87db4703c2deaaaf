import FirSyntax.Project.Check
import FirSyntax.Project.Help

/-!
# The command line

Arguments are read into a command, and a command is run on a file tree. What a run shows is a value:
an exit code and the texts of both outputs. Arguments that make no command are answered with exit
code 2.
-/
namespace FirSyntax.Project

inductive Command where
  /-- Check the sources at a path, with a number of workers. -/
  | build (path : String) (jobs : Option Nat)
  /-- Show the canonical text of a file, or only compare the file with it. -/
  | format (path : String) (check : Bool)
  | version
  | help (topic : HelpTopic)
deriving DecidableEq, Repr

/-- What a run leaves behind. -/
structure Outcome where
  code : Nat
  stdout : String
  stderr : String
deriving DecidableEq, Repr

namespace Command

/-- A count in decimal digits, with an optional plus sign, that fits into 64 bits. -/
def readCount? (text : String) : Option Nat :=
  let digits := match text.toList with
    | '+' :: digits => digits
    | digits => digits
  let value := Decimal.valueOfDigits digits
  if digits.isEmpty || !digits.all Char.isDigit || 18446744073709551616 ≤ value then none
  else some value

/-- The arguments of a command as far as they are read. -/
structure Draft where
  path : Option String
  jobs : Option Nat
  check : Bool

namespace Draft

def empty : Draft := ⟨none, none, false⟩

/-- Exactly one path is taken, and it is not empty. -/
def addPath? (d : Draft) (path : String) : Option Draft :=
  if d.path.isSome || path.isEmpty then none else some { d with path := some path }

def addJobs? (d : Draft) (count : String) : Option Draft :=
  match d.jobs, readCount? count with
  | none, some n => some { d with jobs := some n }
  | _, _ => none

def addCheck? (d : Draft) : Option Draft :=
  if d.check then none else some { d with check := true }

/-- After `--` every argument is a path. -/
def addPaths? (d : Draft) : List String → Option Draft
  | [] => some d
  | path :: rest => (d.addPath? path).bind (addPaths? · rest)

end Draft

/-- The command of arguments that were all read. -/
def ofDraft? (verb : Verb) (d : Draft) : Option Command :=
  match verb, d.path with
  | .build, some path => some (.build path d.jobs)
  | .format, some path => some (.format path d.check)
  | _, none => none

/-- The text after `pre` in an argument that begins with it. -/
def valueAfter? (pre : String) (argument : String) : Option String :=
  if pre.toList.isPrefixOf argument.toList then
    some (String.ofList (argument.toList.drop pre.length))
  else none

/-- The value that an argument gives for the number of jobs: `--jobs=n`, `-jn` or `-j=n`. -/
def attachedJobs? (argument : String) : Option String :=
  match valueAfter? "--jobs=" argument, valueAfter? "-j=" argument, valueAfter? "-j" argument with
  | some value, _, _ => some value
  | _, some value, _ => some value
  | _, _, other => other

/-- Whether an argument is an option and no path; a dash alone is a path. -/
def isOption (argument : String) : Bool :=
  argument.toList.head? = some '-' && argument != "-"

/-- The command of the arguments after its verb. -/
def parseArguments? (verb : Verb) (d : Draft) : List String → Option Command
  | [] => ofDraft? verb d
  | argument :: rest =>
    if argument = "--" then (d.addPaths? rest).bind (ofDraft? verb)
    else if argument = "--help" ∨ (valueAfter? "-h" argument).isSome then
      some (.help (.verb verb))
    else if !isOption argument then (d.addPath? argument).bind (parseArguments? verb · rest)
    else
      match verb with
      | .format =>
        if argument = "--check" then d.addCheck?.bind (parseArguments? verb · rest) else none
      | .build =>
        if argument = "--jobs" ∨ argument = "-j" then
          match rest with
          | count :: rest => (d.addJobs? count).bind (parseArguments? verb · rest)
          | [] => none
        else
          match attachedJobs? argument with
          | some count => (d.addJobs? count).bind (parseArguments? verb · rest)
          | none => none

/-- The command that arguments make. -/
def parse? : List String → Option Command
  | [] => none
  | "build" :: rest => parseArguments? .build Draft.empty rest
  | "format" :: rest => parseArguments? .format Draft.empty rest
  | "help" :: words => (HelpTopic.ofWords? words).map .help
  | argument :: _ =>
    if argument = "--version" ∨ (valueAfter? "-V" argument).isSome then some .version
    else if argument = "--help" ∨ (valueAfter? "-h" argument).isSome then
      some (.help .program)
    else none

end Command

/-- What a run has counted. -/
structure Tally where
  errors : Nat
  /-- The number of files with an error. A counter of 32 bits with a sign holds it while fewer than
  2147483648 files are checked, and only then is it what is shown. -/
  failed : Nat
  statements : Nat
deriving DecidableEq, Repr

/-- A file that could not be read is one error in one file. -/
def Tally.add (t : Tally) : Except ProjectError Report → Tally
  | .error _ => { t with errors := t.errors + 1, failed := t.failed + 1 }
  | .ok report =>
    ⟨t.errors + report.diagnostics.length, t.failed + (if report.isClean then 0 else 1),
      t.statements + report.statements⟩

/-- The lines that a build shows for a file: its diagnostics, or why it could not be read. -/
def entries : Except ProjectError Report → List String
  | .error e => [e.message ++ "\n"]
  | .ok report => report.diagnostics.map fun d =>
    s!"{report.path}:{d.location.line}:{d.location.column}: {d.message}\n"

/-- The last line of a build of `files` files. -/
def summary (t : Tally) (files : Nat) : String :=
  if t.errors = 0 then
    s!"Parsed successfully. Found {t.statements} top-level statements in {files} file(s).\n"
  else s!"{t.errors} error(s) in {t.failed} file(s)\n"

/-- The causes behind an error, each on its own line; several causes are counted. -/
def causedBy : List String → String
  | [] => ""
  | [cause] => s!"\nCaused by:\n    {cause}\n"
  | causes => "\nCaused by:\n" ++ String.join (causes.mapIdx fun n cause => s!"    {n}: {cause}\n")

/-- A run that an error ends, behind what was shown until then. -/
def abort (shown message : String) (causes : List String) : Outcome :=
  ⟨1, "", s!"{shown}Error: {message}\n" ++ causedBy causes⟩

/-- A run that ends with an error before anything was shown. -/
def refuse (e : ProjectError) : Outcome := abort "" e.message e.reason?.toList

namespace Command

variable (U : Unicode.CharData) (tree : Entry)

def runBuild (pool : Pool) (path : String) (jobs : Option Nat) : Outcome :=
  match discover tree path with
  | .error e => refuse e
  | .ok files =>
    let header := s!"Parsing {files.length} file(s)...\n"
    match pool.checkFiles U tree jobs files with
    | .error fault => abort header fault.message (fault.wording :: fault.causes)
    | .ok outcomes =>
      let tally := outcomes.foldl Tally.add ⟨0, 0, 0⟩
      ⟨if tally.errors = 0 then 0 else 1, "",
        String.join (header :: outcomes.flatMap entries ++ [summary tally outcomes.length])⟩

def runFormat (path : String) (check : Bool) : Outcome :=
  match readSource tree path, formatFile U tree path with
  | .error e, _ | _, .error e => refuse e
  | .ok content, .ok text =>
    if !check then ⟨0, text, ""⟩
    else if content = Source.utf8 text then ⟨0, "", ""⟩
    else ⟨1, "", s!"{path} is not formatted\n"⟩

/-- What a command shows when it is run in the directory `tree`. The number of jobs decides which
workers have to be started, and nothing else that is shown. -/
def run (pool : Pool) : Command → Outcome
  | build path jobs => runBuild U tree pool path jobs
  | format path check => runFormat U tree path check
  | version => ⟨0, "firc 0.1.0\n", ""⟩
  | help topic => ⟨0, topic.page, ""⟩

/-- What the program shows when it is started with arguments. -/
def runArguments (arguments : List String) (pool : Pool := .ready) : Outcome :=
  match parse? arguments with
  | some command => run U tree pool command
  | none => ⟨2, "", ""⟩

end Command

end FirSyntax.Project
