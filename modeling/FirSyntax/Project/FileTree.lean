/-!
# File trees

Files and directories as a command finds them, and what a path leads to. A file holds what reading
it gives: its bytes, or the fault with which it is refused. Entries of a directory come in any order.
A path is resolved component by component; empty components and `.` stay where they are, but only a
directory can be stayed in. Trees in which a directory refuses to be listed, or in which a name is not
a text, are left out.
-/
namespace FirSyntax.Project

/-- Why nothing can be read at a path. -/
inductive ReadFault where
  | notFound
  | notDirectory
  | isDirectory
  /-- Any other refusal, in the words of the operating system. -/
  | refused (wording : String)
deriving DecidableEq, Repr

/-- What may stand at a path. -/
inductive Entry where
  | file (content : Except ReadFault (List UInt8))
  | directory (entries : List (String × Entry))

/-- The wording of the operating system, with its number for the fault. -/
def ReadFault.message : ReadFault → String
  | notFound => "No such file or directory (os error 2)"
  | notDirectory => "Not a directory (os error 20)"
  | isDirectory => "Is a directory (os error 21)"
  | refused wording => wording

/-- The parts of a text between slashes. -/
def components (path : String) : List String :=
  (path.toList.foldr split [[]]).map String.ofList
where
  split (c : Char) (parts : List (List Char)) : List (List Char) :=
    if c = '/' then [] :: parts
    else match parts with
      | part :: rest => (c :: part) :: rest
      | [] => [[c]]

namespace Entry

/-- What stands at the path below an entry; `above` holds the directories around it, the innermost
first. -/
def walk (above : List Entry) (here : Entry) : List String → Except ReadFault Entry
  | [] => .ok here
  | name :: rest =>
    match here with
    | file _ => .error .notDirectory
    | directory entries =>
      if name = "" ∨ name = "." then walk above here rest
      else if name = ".." then
        match above with
        | outer :: above => walk above outer rest
        | [] => walk [] here rest
      else
        match entries.lookup name with
        | some entry => walk (here :: above) entry rest
        | none => .error .notFound

/-- What a path leads to; the empty path leads nowhere. -/
def resolve (root : Entry) (path : String) : Except ReadFault Entry :=
  if path = "" then .error .notFound else walk [] root (components path)

/-- The bytes of the file at a path. -/
def read (root : Entry) (path : String) : Except ReadFault (List UInt8) :=
  match root.resolve path with
  | .ok (file content) => content
  | .ok (directory _) => .error .isDirectory
  | .error fault => .error fault

/-- The entries with one of them replaced or added. -/
def put (name : String) (entry : Entry) : List (String × Entry) → List (String × Entry)
  | [] => [(name, entry)]
  | other :: rest => if other.1 = name then (name, entry) :: rest else other :: put name entry rest

/-- The names to follow from the top of a tree to where a path leads, if all its parts exist. -/
def canonical (parts : List String) : List String :=
  (parts.foldl (fun kept part =>
    if part = "" ∨ part = "." then kept
    else if part = ".." then kept.tail
    else part :: kept) []).reverse

/-- A tree in which `make` gives what stands at a path, from what stood there. Directories that
lead there are made as needed. -/
def place (make : Option Entry → Entry) : List String → Option Entry → Entry
  | [], here => make here
  | name :: rest, here =>
    let entries := match here with
      | some (directory entries) => entries
      | _ => []
    directory (put name (place make rest (entries.lookup name)) entries)

/-- A tree with an entry at a path. -/
def withEntry (tree : Entry) (path : String) (entry : Entry) : Entry :=
  place (fun _ => entry) (canonical (components path)) (some tree)

/-- A tree with a file of the given bytes at a path. -/
def withFile (tree : Entry) (path : String) (content : List UInt8) : Entry :=
  tree.withEntry path (file (.ok content))

/-- A tree with a directory at a path; one that is there already keeps its entries. -/
def withDirectory (tree : Entry) (path : String) : Entry :=
  place (fun here => match here with
    | some (directory entries) => directory entries
    | _ => directory []) (canonical (components path)) (some tree)

end Entry

end FirSyntax.Project
