import FirSyntax.Project.FileTree

/-!
# Discovery of sources

A path to anything but a directory is taken as it is. Below a directory every file with the
extension of source files is found, at any depth. The result is sorted component by component, so
it does not depend on the order in which directories list their entries. Every directory of a tree can
be listed, so the one failure is that there is no source.
-/
namespace FirSyntax.Project

/-- Why a command cannot go on, or a file cannot be reported on. -/
inductive ProjectError where
  | io (path : String) (fault : ReadFault)
  | noSources (path : String)
  | faulty (path : String) (count : Nat)
deriving DecidableEq, Repr

namespace ProjectError

def message : ProjectError → String
  | io path fault => s!"{path}: {fault.message}"
  | noSources path => s!"no .fir files found in {path}"
  | faulty path count => s!"{path}: {count} syntax error(s)"

/-- What lies behind an error, in words of its own. -/
def reason? : ProjectError → Option String
  | io _ fault => some fault.message
  | _ => none

end ProjectError

/-- The part of a file name after its last dot. A dot in front of the whole name begins no
extension. -/
def extension? (name : String) : Option String :=
  let (after, before) := name.toList.reverse.span (· != '.')
  match before with
  | _ :: _ :: _ => some (String.ofList after.reverse)
  | _ => none

def isSourceName (name : String) : Bool := extension? name == some "fir"

mutual

/-- The sources at or below an entry of the given name, as the components of their paths. -/
def sourcesAt (name : String) : Entry → List (List String)
  | .file _ => if isSourceName name then [[name]] else []
  | .directory entries => (sourcesIn entries).map (name :: ·)

/-- The sources at or below entries. -/
def sourcesIn : List (String × Entry) → List (List String)
  | [] => []
  | (name, entry) :: rest => sourcesAt name entry ++ sourcesIn rest

end

/-- A path below `root`, which is kept as it is written. -/
def join (root : String) (parts : List String) : String :=
  root ++ (if root.toList.getLast? = some '/' then "" else "/") ++ "/".intercalate parts

/-- Whether a name comes before another, code point by code point. -/
def nameBefore (a b : String) : Bool :=
  a.toList.lex b.toList fun c d => c.toNat < d.toNat

/-- Whether a path comes no later than another, component by component. -/
def precedes (a b : List String) : Bool := !b.lex a nameBefore

/-- The sources that a path names. -/
def discover (tree : Entry) (path : String) : Except ProjectError (List String) :=
  match tree.resolve path with
  | .ok (.directory entries) =>
    match (sourcesIn entries).mergeSort precedes with
    | [] => .error (.noSources path)
    | found => .ok (found.map (join path))
  | _ => .ok [path]

end FirSyntax.Project
