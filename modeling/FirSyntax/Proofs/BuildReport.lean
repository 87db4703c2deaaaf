import FirSyntax.Project.CommandLine
import FirSyntax.Proofs.Diagnostics
import FirSyntax.Proofs.Project.Edits

/-!
# The report of a build

What a build shows of a file is told from the path of the file and what is read there. A report is
put together from that, file by file, and its counts are those of the lines that it shows. So an
edit of one file leaves what is shown of every other file as it was.
-/
namespace FirSyntax.Project

variable (U : Unicode.CharData) (tree : Entry)

/-- The diagnostics of the bytes of a file. -/
def diagnosticsOf (content : List UInt8) : List Diagnostic := (SourceFile.parse U "" "" content).2

/-- The number of statements at the top level of the bytes of a file. -/
def statementsOf (content : List UInt8) : Nat := (SourceFile.parse U "" "" content).1.body.length

/-- The entries of a file in a report: a line for each diagnostic of its bytes, or one line that
says why they cannot be read. -/
def fileEntries (path : String) : Except ReadFault (List UInt8) → List String
  | .error fault => [s!"{path}: {fault.message}\n"]
  | .ok content => (diagnosticsOf U content).map fun d =>
    s!"{path}:{d.location.line}:{d.location.column}: {d.message}\n"

def fileStatements : Except ReadFault (List UInt8) → Nat
  | .error _ => 0
  | .ok content => statementsOf U content

/-- The entries of the file at a path. -/
def entriesAt (path : String) : List String := fileEntries U path (tree.read path)

/-- The number of statements at the top level of the file at a path. -/
def statementsAt (path : String) : Nat := fileStatements U (tree.read path)

/-- Whether the file at a path has an entry. -/
def isFailed (path : String) : Bool := !(entriesAt U tree path).isEmpty

/-- The last line of a report that shows entries of a number of files. -/
def lastLine (shown : List String) (failed statements files : Nat) : String :=
  if shown = [] then
    s!"Parsed successfully. Found {statements} top-level statements in {files} file(s).\n"
  else s!"{shown.length} error(s) in {failed} file(s)\n"

/-! ## One file -/

/-- Diagnostics come in the order of the source. -/
theorem diagnosticsOf_sorted (content : List UInt8) :
    ((diagnosticsOf U content).map (·.location)).Pairwise (· < ·) := by
  have hstart : (Reading.start (Token.Stream.ofBytes U content)).Orderly
      (Token.Stream.ofBytes U content) := Reading.orderly_start (List.suffix_refl _)
  have horderly := (Statement.readAllFrom_comesTo [] _).orderly
    (Token.Stream.ordered_ofBytes U content) hstart
  rw [diagnosticsOf, SourceFile.parse, Reading.diagnostics, List.map_reverse,
    List.pairwise_reverse, List.pairwise_map]
  exact horderly.1.sorted

theorem parseSource_eq (path : String) : parseSource U tree path =
    match tree.read path with
    | .error fault => .error (.io path fault)
    | .ok content => .ok (SourceFile.parse U (splitPath path).1 (splitPath path).2 content) := by
  rw [parseSource, readSource]
  cases tree.read path <;> rfl

/-- What is shown of a checked file, and counted of it, is told from its bytes. -/
theorem entries_checkFile (path : String) :
    entries (checkFile U tree path) = entriesAt U tree path := by
  rw [checkFile, parseSource_eq, entriesAt]
  cases tree.read path <;> rfl

/-- What a checked file adds to a tally. -/
theorem add_checkFile (t : Tally) (path : String) : t.add (checkFile U tree path) =
    ⟨t.errors + (entriesAt U tree path).length,
      t.failed + (if entriesAt U tree path = [] then 0 else 1),
      t.statements + statementsAt U tree path⟩ := by
  rw [checkFile, parseSource_eq, entriesAt, statementsAt]
  cases tree.read path with
  | error fault => rfl
  | ok content =>
    simp only [bind, Except.bind, pure, Except.pure, Tally.add, Report.isClean, List.isEmpty_iff,
      fileEntries, List.length_map, List.map_eq_nil_iff]
    rfl

/-- The canonical text of a file, unless something is shown of it. -/
theorem formatFile_eq (path : String) : formatFile U tree path =
    match tree.read path with
    | .error fault => .error (.io path fault)
    | .ok content =>
      if diagnosticsOf U content = [] then
        .ok (SourceFile.parse U (splitPath path).1 (splitPath path).2 content).1.write
      else .error (.faulty path (diagnosticsOf U content).length) := by
  rw [formatFile, parseSource_eq]
  cases tree.read path with
  | error fault => rfl
  | ok content =>
    simp only [bind, Except.bind, pure, Except.pure, List.isEmpty_iff]
    rfl

/-- A file has a canonical text just when nothing is shown of it. -/
theorem formatFile_ok_iff (path : String) :
    (∃ text, formatFile U tree path = .ok text) ↔ entriesAt U tree path = [] := by
  rw [formatFile_eq, entriesAt]
  cases tree.read path with
  | error fault => simp [fileEntries]
  | ok content =>
    dsimp only [fileEntries]
    rw [List.map_eq_nil_iff]
    split_ifs with hclean
    · exact ⟨fun _ => hclean, fun _ => ⟨_, rfl⟩⟩
    · simp [hclean]

/-! ## All files -/

/-- The counts of a build are those of the entries, of the files that have some, and of the
statements. -/
theorem foldl_add (files : List String) (t : Tally) :
    (checkFiles U tree files).foldl Tally.add t =
      ⟨t.errors + (files.flatMap (entriesAt U tree)).length,
        t.failed + files.countP (isFailed U tree),
        t.statements + (files.map (statementsAt U tree)).foldr (· + ·) 0⟩ := by
  rw [checkFiles]
  induction files generalizing t with
  | nil => rfl
  | cons file files ih =>
    rw [List.map_cons, List.foldl_cons, ih, add_checkFile, List.flatMap_cons, List.length_append,
      List.countP_cons, List.map_cons, List.foldr_cons]
    have hfailed : (if isFailed U tree file then 1 else 0) =
        if entriesAt U tree file = [] then 0 else 1 := by
      rw [isFailed]
      cases entriesAt U tree file <;> rfl
    rw [hfailed, Tally.mk.injEq]
    exact ⟨Nat.add_assoc .., by dsimp only; omega, Nat.add_assoc ..⟩

/-- A build shows the entries of the files between the number of files and the counts. -/
theorem runBuild_eq {pool : Pool} {path : String} {jobs : Option Nat} {files : List String}
    (hpool : pool.Starts jobs) (h : discover tree path = .ok files) :
    Command.runBuild U tree pool path jobs =
      ⟨if files.flatMap (entriesAt U tree) = [] then 0 else 1, "",
        String.join ([s!"Parsing {files.length} file(s)...\n"] ++ files.flatMap (entriesAt U tree) ++
          [summary ⟨(files.flatMap (entriesAt U tree)).length,
            files.countP (isFailed U tree),
            (files.map (statementsAt U tree)).foldr (· + ·) 0⟩ files.length])⟩ := by
  have hentries : (checkFiles U tree files).flatMap entries = files.flatMap (entriesAt U tree) := by
    rw [checkFiles, List.flatMap_map]
    exact congrArg (files.flatMap ·) (funext (entries_checkFile U tree))
  have hchecked : pool.checkFiles U tree jobs files = .ok (checkFiles U tree files) := by
    rw [Pool.checkFiles, hpool]
    rfl
  rw [Command.runBuild, h]
  dsimp only
  rw [hchecked]
  dsimp only
  rw [foldl_add, hentries, Nat.zero_add, Nat.zero_add, Nat.zero_add, checkFiles, List.length_map]
  simp only [List.length_eq_zero_iff, List.singleton_append]

/-- For every tree and path that names files, and every number of jobs for which workers can be
started, a build shows how many files there are, the entries of each in order of the files, its
diagnostics in order of the source, and last the counts; it fails just when there are entries. The
number of failed files fits into a counter of 32 bits with a sign if that of all files does. The
entries of a file are the same in all trees where the same is read at its path. So they are the same
when another file is changed or removed, and the file is still named. A file has a canonical text just
when it has no entry, and else is refused with the number of its diagnostics or with the reason why
it cannot be read. -/
theorem build_report (path : String) (pool : Pool) (jobs : Option Nat) (hpool : pool.Starts jobs)
    (files : List String) (hfiles : discover tree path = .ok files) :
    let shown := files.flatMap (entriesAt U tree)
    let failed := files.countP (isFailed U tree)
    let statements := (files.map (statementsAt U tree)).foldr (· + ·) 0
    Command.run U tree pool (.build path jobs) =
        { code := if shown = [] then 0 else 1
          stdout := ""
          stderr := String.join ([s!"Parsing {files.length} file(s)...\n"] ++ shown ++
            [lastLine shown failed statements files.length]) } ∧
      (files.length < 2147483648 → failed < 2147483648) ∧
      (∀ content, ((diagnosticsOf U content).map (·.location)).Pairwise (· < ·)) ∧
      (∀ tree' file, tree'.read file = tree.read file →
        entries (checkFile U tree' file) = entries (checkFile U tree file)) ∧
      (∀ file ∈ files, ∀ place tree', tree.Edited place tree' → tree.IsOther place file →
        ∃ files', discover tree' path = .ok files' ∧ file ∈ files' ∧
          entries (checkFile U tree' file) = entries (checkFile U tree file)) ∧
      ∀ file,
        ((∃ text, formatFile U tree file = .ok text) ↔ entriesAt U tree file = []) ∧
        (∀ fault, tree.read file = .error fault → formatFile U tree file = .error (.io file fault)) ∧
        ∀ content, tree.read file = .ok content → diagnosticsOf U content ≠ [] →
          formatFile U tree file = .error (.faulty file (diagnosticsOf U content).length) := by
  intro shown failed statements
  have hsame {tree' : Entry} {file : String} (hread : tree'.read file = tree.read file) :
      entries (checkFile U tree' file) = entries (checkFile U tree file) := by
    rw [entries_checkFile, entries_checkFile, entriesAt, entriesAt, hread]
  refine ⟨?_, Nat.lt_of_le_of_lt List.countP_le_length, diagnosticsOf_sorted U,
    fun tree' file => hsame, ?_, fun file => ⟨formatFile_ok_iff U tree file, ?_, ?_⟩⟩
  · rw [Command.run, runBuild_eq U tree hpool hfiles, summary]
    simp only [List.length_eq_zero_iff]
    rfl
  · intro file hfile place tree' hedited hother
    obtain ⟨files', hfiles', hmem⟩ := hedited.mem_discover hfiles hfile hother.not_meets
    exact ⟨files', hfiles', hmem, hsame (hedited.read_eq hother.not_meets)⟩
  · intro fault hread
    rw [formatFile_eq, hread]
  · intro content hread hne
    rw [formatFile_eq, hread]
    exact if_neg hne

/-- A build of two files, of which one is faulty, and the other when that one is removed. -/
theorem build_report_two_files :
    let clean := ("a.fir", Entry.file (.ok (Source.utf8 "var x: int\n")))
    let faulty := ("b.fir", Entry.file (.ok (Source.utf8 ")\n")))
    let tree := Entry.directory [("src", .directory [clean, faulty])]
    let tree' := Entry.directory [("src", .directory [clean])]
    Command.run .standard tree .ready (.build "src" (some 2)) = ⟨1, "", "Parsing 2 file(s)...\n" ++
        "src/b.fir:1:1: Expected const, proc, var, or comment\n" ++ "1 error(s) in 1 file(s)\n"⟩ ∧
      (∃ files', discover tree' "src" = .ok files' ∧ "src/a.fir" ∈ files' ∧
        entries (checkFile .standard tree' "src/a.fir") =
          entries (checkFile .standard tree "src/a.fir")) ∧
      (∃ text, formatFile .standard tree "src/a.fir" = .ok text) ∧
      formatFile .standard tree "src/b.fir" = .error (.faulty "src/b.fir" 1) := by
  intro clean faulty tree tree'
  have hsorted : [["a.fir"], ["b.fir"]].mergeSort precedes = [["a.fir"], ["b.fir"]] :=
    List.mergeSort_of_pairwise (by decide +kernel)
  have hfiles : discover tree "src" = .ok ["src/a.fir", "src/b.fir"] := by
    have hresolve : tree.resolve "src" = .ok (.directory [clean, faulty]) := rfl
    have hsources : sourcesIn [clean, faulty] = [["a.fir"], ["b.fir"]] := rfl
    rw [discover_directory hresolve, hsources, hsorted]
    rfl
  have hedited : tree.Edited ["src", "b.fir"] tree' := by
    have hsrc : IsProper "src" := ⟨by decide, by decide, by decide, by decide⟩
    have hname : IsProper "b.fir" := ⟨by decide, by decide, by decide, by decide⟩
    exact .directory (.within hsrc (.further (by decide) (.removed hname rfl)))
  have hother : tree.IsOther ["src", "b.fir"] "src/a.fir" := by
    have hread : tree.read "src/a.fir" = .ok (Source.utf8 "var x: int\n") := rfl
    rw [Entry.IsOther, hread]
    decide
  obtain ⟨hrun, -, -, -, hedit, hformat⟩ := build_report .standard tree "src" .ready (some 2) rfl _ hfiles
  refine ⟨hrun.trans (by decide +kernel), hedit _ List.mem_cons_self _ tree' hedited hother,
    (hformat _).1.mpr (by decide +kernel), ?_⟩
  have hcount : (diagnosticsOf .standard (Source.utf8 ")\n")).length = 1 := by decide +kernel
  rw [(hformat "src/b.fir").2.2 _ rfl (List.ne_nil_of_length_pos (by rw [hcount]; decide)), hcount]

end FirSyntax.Project
