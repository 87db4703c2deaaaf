import FirSyntax.Proofs.Reading.FileReaches

/-!
# The loops of the reader

A file, a block and what is left of a broken line are read in passes. A pass returns, or it takes a
token at least and goes on; so a loop makes no more passes than there are tokens, and what it gives
is what its passes give together.
-/
namespace FirSyntax

open Token

/-- A loop is known from its passes: those that return, and those that go on and may have added a
statement. -/
structure Loop where
  Returns : Reading → Reading → Prop
  GoesOn : Reading → Option Statement → Reading → Prop

/-- The loop goes on `n` times before it returns. -/
inductive Loop.Runs (loop : Loop) : Nat → Reading → List Statement → Reading → Prop
  | returns {r s} : loop.Returns r s → Runs loop 0 r [] s
  | goesOn {n r t s added body} : loop.GoesOn r added t → Runs loop n t body s →
      Runs loop (n + 1) r (added.toList ++ body) s

/-- One token at least was consumed between `r` and `s`. -/
def Reading.Consumes (r s : Reading) : Prop :=
  ∃ ts, ts ≠ [] ∧ r.stream.tokens = ts ++ s.stream.tokens ∧ s.stream.ending = r.stream.ending

/-- There is a pass for every reading, and every pass that goes on consumes. -/
structure Loop.Progresses (loop : Loop) : Prop where
  pass : ∀ r, (∃ s, loop.Returns r s) ∨ ∃ added s, loop.GoesOn r added s
  consumes : ∀ {r added s}, loop.GoesOn r added s → r.Consumes s

variable {loop : Loop} {r s : Reading} {depth n : Nat} {added : Option Statement}
  {body : List Statement}

namespace Reading

theorem Consumes.remaining_lt (h : r.Consumes s) : s.remaining < r.remaining := by
  obtain ⟨ts, hne, htokens, -⟩ := h
  have hpos := List.length_pos_iff.mpr hne
  rw [remaining, remaining, Stream.length, Stream.length, htokens, List.length_append]
  omega

theorem ComesTo.consumes (h : r.ComesTo s) (hlt : s.remaining < r.remaining) : r.Consumes s := by
  obtain ⟨ts, htokens, hending, -⟩ := h.exists_consumed
  refine ⟨ts, ?_, htokens, hending⟩
  rintro rfl
  rw [remaining, remaining, Stream.length, Stream.length, htokens] at hlt
  exact absurd hlt (Nat.lt_irrefl _)

end Reading

/-- A loop that makes progress comes to an end, after no more passes than there are tokens. -/
theorem Loop.Progresses.exists_runs (h : loop.Progresses) (r : Reading) :
    ∃ n body s, n ≤ r.remaining ∧ loop.Runs n r body s := by
  rcases h.pass r with ⟨s, hreturns⟩ | ⟨added, t, hgoes⟩
  · exact ⟨0, [], s, Nat.zero_le _, .returns hreturns⟩
  · have hlt := (h.consumes hgoes).remaining_lt
    obtain ⟨n, body, s, hle, hruns⟩ := exists_runs h t
    exact ⟨n + 1, _, s, Nat.lt_of_le_of_lt hle hlt, .goesOn hgoes hruns⟩
termination_by r.remaining

/-! ## What is left of a line -/

namespace Reading

theorem SkipTurn.consumes (h : SkipTurn depth r s) : r.Consumes s :=
  h.heeds.comesTo.consumes h.remaining_lt

/-- The loop that passes over a line. -/
def skipLoop (depth : Nat) : Loop :=
  ⟨SkipEnd depth, fun r added s => added = none ∧ SkipTurn depth r s⟩

theorem skipLoop_progresses (depth : Nat) : (skipLoop depth).Progresses where
  pass r := (skip_cases depth r).imp_right fun ⟨s, hturn⟩ => ⟨none, s, rfl, hturn⟩
  consumes hgoes := hgoes.2.consumes

theorem skipLine_eq_of_runs (h : (skipLoop depth).Runs n r body s) :
    body = [] ∧ r.skipLine depth = s := by
  induction h with
  | returns hreturns => exact ⟨rfl, hreturns.skipLine_eq⟩
  | goesOn hgoes _ ih =>
    obtain ⟨rfl, hturn⟩ := hgoes
    obtain ⟨rfl, hskip⟩ := ih
    exact ⟨rfl, hturn.skipLine_eq.trans hskip⟩

end Reading

/-! ## Blocks and files -/

namespace Statement

open Reading

/-- The loop that reads the lines of a block. -/
def blockLoop (depth : Nat) : Loop := ⟨BlockEnd depth, BlockTurn depth⟩

/-- The loop that reads the lines of a file. -/
def fileLoop : Loop := ⟨fun r s => r.current.kind = .eof ∧ s = r, FileTurn⟩

theorem blockLoop_progresses (depth : Nat) : (blockLoop depth).Progresses where
  pass := exists_blockTurn depth
  consumes hgoes := hgoes.comesTo.consumes hgoes.remaining_lt

theorem fileLoop_progresses : fileLoop.Progresses where
  pass r := by
    by_cases heof : r.current.kind = .eof
    · exact .inl ⟨r, heof, rfl⟩
    · exact .inr (exists_fileTurn heof)
  consumes hgoes := hgoes.comesTo.consumes hgoes.remaining_lt

theorem readBlock_eq_of_runs (h : (blockLoop depth).Runs n r body s) :
    (readBlock depth r).result = (body, s) := by
  induction h with
  | returns hreturns => exact hreturns.result
  | goesOn hgoes _ ih =>
    obtain ⟨hbody, hafter⟩ := Prod.mk.inj ih
    rw [hgoes.result, hbody, hafter]

theorem readAllFrom_eq_of_runs (h : fileLoop.Runs n r body s) (done : List Statement) :
    readAllFrom done r = (done.reverse ++ body, s) := by
  induction h generalizing done with
  | returns hreturns =>
    obtain ⟨heof, rfl⟩ := hreturns
    rw [readAllFrom_eof done heof, List.append_nil]
  | @goesOn _ _ _ _ added body hgoes _ ih =>
    rw [hgoes.readAllFrom_eq, ih, List.reverse_append, List.append_assoc]
    cases added <;> rfl

end Statement

end FirSyntax
