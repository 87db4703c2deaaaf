import FirSyntax.Project.Discovery
import FirSyntax.Reading.Statement
import FirSyntax.Writing.Statement

/-!
# Checking and formatting files

A file is checked on its own, from its path and its bytes; a file that cannot be read does not keep
others from being checked. Files are checked by a pool of workers, which may fail to start; how many
workers share the files changes nothing that is found. Only a file without diagnostics has a
canonical form.
-/
namespace FirSyntax.Project

/-- What checking a file found. -/
structure Report where
  path : String
  /-- The number of statements at the top level. -/
  statements : Nat
  diagnostics : List Diagnostic
deriving DecidableEq, Repr

def Report.isClean (report : Report) : Bool := report.diagnostics.isEmpty

variable (U : Unicode.CharData) (tree : Entry)

/-- The bytes of a file. -/
def readSource (path : String) : Except ProjectError (List UInt8) :=
  match tree.read path with
  | .ok content => .ok content
  | .error fault => .error (.io path fault)

/-- The last component of a path, and the path in front of it. Empty components and `.` do not end
the latter, unless they are the beginning of the path. -/
def splitPath (path : String) : String × String :=
  match (components path).reverse with
  | name :: parents =>
    match (parents.dropWhile fun part => part = "" ∨ part = ".").reverse with
    | [] => (name, match parents.getLast? with
      | none => ""
      | some "" => "/"
      | some first => first)
    | front => (name, "/".intercalate front)
  | [] => ("", "")

def parseSource (path : String) : Except ProjectError (SourceFile × List Diagnostic) := do
  let content ← readSource tree path
  return SourceFile.parse U (splitPath path).1 (splitPath path).2 content

def checkFile (path : String) : Except ProjectError Report := do
  let (file, diagnostics) ← parseSource U tree path
  return ⟨path, file.body.length, diagnostics⟩

/-- The outcome for each file, in the order of the files. -/
def checkFiles (paths : List String) : List (Except ProjectError Report) :=
  paths.map (checkFile U tree)

/-- Why no workers could be started, in the words of the library that runs them, and what it says
lies behind that. -/
structure PoolFault where
  wording : String
  causes : List String
deriving DecidableEq, Repr

def PoolFault.message (fault : PoolFault) : String :=
  s!"failed to start worker pool: {fault.wording}"

/-- A library that runs workers: what starting some gives, in the number that is asked for or else in
one that the library chooses. -/
structure Pool where
  start : Option Nat → Except PoolFault Unit

/-- Workers are there, in the number that is asked for. -/
def Pool.Starts (pool : Pool) (jobs : Option Nat) : Prop := pool.start jobs = .ok ()

/-- The pool of one worker that is there already. -/
def Pool.ready : Pool := ⟨fun _ => .ok ()⟩

/-- The outcomes for files that a pool of workers checks. -/
def Pool.checkFiles (pool : Pool) (jobs : Option Nat) (paths : List String) :
    Except PoolFault (List (Except ProjectError Report)) := do
  pool.start jobs
  return Project.checkFiles U tree paths

/-- The outcome for each source that a path names. -/
def check (path : String) : Except ProjectError (List (Except ProjectError Report)) := do
  return checkFiles U tree (← discover tree path)

/-- The canonical text of a file. -/
def formatFile (path : String) : Except ProjectError String := do
  let (file, diagnostics) ← parseSource U tree path
  if diagnostics.isEmpty then return file.write
  else throw (.faulty path diagnostics.length)

end FirSyntax.Project
