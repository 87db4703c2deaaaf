import FirSyntax.Proofs.Reading.Loops

/-!
# Reading comes to an end

Whatever tokens are left in front of the reader, and however they are laid out, every loop of it
returns, and a file is read up to its end.
-/
namespace FirSyntax

open Token

namespace Statement

variable {r : Reading} {depth : Nat}

theorem exists_fileRun (r : Reading) :
    ∃ n ≤ r.remaining, fileLoop.Runs n r (readAll r).1 (readAll r).2 := by
  obtain ⟨n, body, s, hle, hruns⟩ := fileLoop_progresses.exists_runs r
  have hread : readAll r = (body, s) := readAllFrom_eq_of_runs hruns []
  rw [hread]
  exact ⟨n, hle, hruns⟩

theorem exists_blockRun (depth : Nat) (r : Reading) :
    ∃ n ≤ r.remaining,
      (blockLoop depth).Runs n r (readBlock depth r).value (readBlock depth r).after := by
  obtain ⟨n, body, s, hle, hruns⟩ := (blockLoop_progresses depth).exists_runs r
  obtain ⟨hvalue, hafter⟩ := Prod.mk.inj (readBlock_eq_of_runs hruns)
  rw [hvalue, hafter]
  exact ⟨n, hle, hruns⟩

theorem exists_skipRun (depth : Nat) (r : Reading) :
    ∃ n ≤ r.remaining, (Reading.skipLoop depth).Runs n r [] (r.skipLine depth) := by
  obtain ⟨n, body, s, hle, hruns⟩ := (Reading.skipLoop_progresses depth).exists_runs r
  obtain ⟨rfl, hskip⟩ := Reading.skipLine_eq_of_runs hruns
  rw [hskip]
  exact ⟨n, hle, hruns⟩

/-- In every state of the reader, a pass of the loops over a file, a block and a broken line returns or
consumes a token at least, so that each of these loops returns after no more passes than there are
tokens left. With any number of tokens of a source taken away beforehand, the end of the file is in
front when the file was read, and reading it again gives nothing and changes nothing. -/
theorem readAll_finishes (U : Unicode.CharData) (bytes : List UInt8) (taken : Nat) :
    let r := Reading.start ((Stream.ofBytes U bytes).drop taken)
    (fileLoop.Progresses ∧ ∀ depth, (blockLoop depth).Progresses ∧
        (Reading.skipLoop depth).Progresses) ∧
      (∃ n ≤ r.remaining, fileLoop.Runs n r (readAll r).1 (readAll r).2) ∧
      (∀ depth s, (∃ n ≤ s.remaining,
            (blockLoop depth).Runs n s (readBlock depth s).value (readBlock depth s).after) ∧
          ∃ n ≤ s.remaining, (Reading.skipLoop depth).Runs n s [] (s.skipLine depth)) ∧
      (readAll r).2.current.kind = .eof ∧ readAll (readAll r).2 = ([], (readAll r).2) := by
  intro r
  have heof : (readAll r).2.current.kind = .eof := kind_readAllFrom [] r
  have hagain : readAll (readAll r).2 = ([], (readAll r).2) := readAllFrom_eof [] heof
  refine ⟨⟨fileLoop_progresses, fun depth => ?_⟩, exists_fileRun r, fun depth s => ?_, heof, hagain⟩
  · exact ⟨blockLoop_progresses depth, Reading.skipLoop_progresses depth⟩
  · exact ⟨exists_blockRun depth s, exists_skipRun depth s⟩

end Statement

end FirSyntax
