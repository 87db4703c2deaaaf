import FirSyntax.Project.CommandLine
import FirSyntax.Unicode.Table

/-!
# The program

Takes a picture of the part of the file system that the arguments name, runs the command on it and
shows the outcome. Files are checked one after another, so no workers have to be started.
-/
namespace FirSyntax.Project

/-- Why the operating system refuses to read a file. -/
def refusal : IO.Error → ReadFault
  | .noFileOrDirectory .. => .notFound
  | .permissionDenied _ number wording | .inappropriateType _ number wording
  | .invalidArgument _ number wording | .resourceExhausted _ number wording
  | .hardwareFault number wording | .otherError number wording => numbered number wording
  | error => .refused error.toString
where
  -- The number is negated, and the wording is another one, where the fault comes from looking at
  -- the file and not from opening it.
  numbered (number : UInt32) (wording : String) : ReadFault :=
    match number.toInt32.toInt.natAbs with
    | 13 => .refused "Permission denied (os error 13)"
    | 20 => .notDirectory
    | 21 => .isDirectory
    | 36 => .refused "File name too long (os error 36)"
    | 40 => .refused "Too many levels of symbolic links (os error 40)"
    | number => .refused s!"{wording} (os error {number})"

/-- What reading the file at a path gives. -/
def contentAt (path : String) : IO (Except ReadFault (List UInt8)) := do
  match ← (IO.FS.readBinFile path).toBaseIO with
  | .ok bytes => return .ok bytes.data.toList
  | .error error => return .error (refusal error)

/-- The directories and files below a directory. -/
partial def pictureBelow (path : String) : IO (List (String × Entry)) := do
  let mut entries := []
  for item in (← (System.mkFilePath [path]).readDir) do
    let below := join path [item.fileName]
    if ← (System.mkFilePath [below]).isDir then
      entries := (item.fileName, Entry.directory (← pictureBelow below)) :: entries
    else
      entries := (item.fileName, Entry.file (← contentAt below)) :: entries
  return entries

/-- What stands at a path, or nothing when the path does not lead anywhere. -/
def picture? (path : String) : IO (Option Entry) := do
  if ← (System.mkFilePath [path]).isDir then
    return some (.directory (← pictureBelow path))
  match ← contentAt path with
  | .error .notFound | .error .notDirectory => return none
  | content => return some (.file content)

/-- The file tree as far as a path leads into it. The path and every part of it in front of a slash
are looked at, so that a file in place of a directory is seen as one. -/
def pictureOf (path : String) : IO Entry := do
  let parts := components path
  let mut tree := Entry.directory []
  for n in [1 : parts.length] do
    let front := "/".intercalate (parts.take n)
    if front != "" then
      if ← (System.mkFilePath [front]).isDir then
        tree := tree.withDirectory front
      else if let some entry := ← picture? front then
        tree := tree.withEntry front entry
  if let some entry := ← picture? path then
    tree := tree.withEntry path entry
  return tree

end FirSyntax.Project

open FirSyntax FirSyntax.Project in
def main (arguments : List String) : IO UInt32 := do
  let tree ← match Command.parse? arguments with
    | some (.build path _) | some (.format path _) => pictureOf path
    | _ => pure (Entry.directory [])
  let outcome := Command.runArguments Unicode.CharData.standard tree arguments
  (← IO.getStdout).putStr outcome.stdout
  (← IO.getStderr).putStr outcome.stderr
  return UInt32.ofNat outcome.code
