import FirSyntax.Proofs.Reading.FileCompleteness
import FirSyntax.Proofs.Token.ScannerLevels

/-!
# The language that is accepted

A source file is read without a diagnostic just when its tokens are derived by the strict grammar,
and then what was read is the tree of the derivation. There is no other tree for the same tokens.
-/
namespace FirSyntax

open Token Grammar

/-- The tokens of any bytes are laid out. -/
theorem Token.Stream.laid_ofBytes (U : Unicode.CharData) (bytes : List UInt8) :
    Laid true .lineStart 0 (Stream.ofBytes U bytes).tokens :=
  Scanner.laid_lineStart (Scanner.start (Source.ofBytes bytes)) rfl (by simp)

namespace Grammar

theorem IsLine.lax {place : Place} {fs : List Token} {comment : Option String} {s : Statement}
    (h : IsLine true place fs comment s) : IsLine false place fs comment s ∧ s.Complete := by
  cases h with
  | consts ht hclauses hconstant =>
    exact ⟨.consts ht hclauses (by simp), .consts (hconstant rfl)⟩
  | vars ht hclauses => exact ⟨.vars ht hclauses, .vars⟩
  | returns ht hvalue => exact ⟨.returns ht hvalue, .returns⟩
  | comment ht => exact ⟨.comment ht, .empty⟩
  | imports ht hpaths => exact ⟨.imports ht hpaths, .imports⟩
  | moduleName ht htext hpath => exact ⟨.moduleName ht htext hpath, .moduleName⟩

mutual

/-- The strict grammar derives complete trees only, and no others than the lax one. -/
theorem IsStatement.lax {place : Place} {ts rest : List Token} {s : Statement} :
    (h : IsStatement true place ts s rest) → IsStatement false place ts s rest ∧ s.Complete
  | .line hs hline => ⟨.line hs.lax.1 hline, hs.lax.2⟩
  | .procedure hheading hline hblock => by
    obtain ⟨hblock, hne, hcomplete⟩ := hblock.lax
    exact ⟨.procedure hheading hline hblock, .procedure hne hcomplete⟩
  | .headerAlone hstrict _ _ _ => by cases hstrict

theorem IsBlock.lax {ts rest : List Token} {body : List Statement} :
    (h : IsBlock true ts body rest) →
      IsBlock false ts body rest ∧ body ≠ [] ∧ ∀ s ∈ body, s.Complete
  | .intro hi hbody hu => by
    obtain ⟨hlax, hcomplete⟩ := hbody.lax
    exact ⟨.intro hi hlax hu, hbody.body_ne_nil, hcomplete⟩

theorem IsBody.lax {ts rest : List Token} {body : List Statement} :
    (h : IsBody true ts body rest) → IsBody false ts body rest ∧ ∀ s ∈ body, s.Complete
  | .one hs => ⟨.one hs.lax.1, by simpa using hs.lax.2⟩
  | .more hs hrest => by
    obtain ⟨hlax, hcomplete⟩ := hrest.lax
    exact ⟨.more hs.lax.1 hlax, by simpa [hs.lax.2] using hcomplete⟩

end

theorem IsFile.lax {ts : List Token} {body : List Statement} (h : IsFile true ts body) :
    IsFile false ts body ∧ ∀ s ∈ body, s.Complete := by
  induction h with
  | nil => exact ⟨.nil, by simp⟩
  | newline ht _ ih => exact ⟨.newline ht ih.1, ih.2⟩
  | statement hs _ ih => exact ⟨.statement hs.lax.1 ih.1, by simpa [hs.lax.2] using ih.2⟩

end Grammar

namespace SourceFile

variable (U : Unicode.CharData) (name directory : String) (bytes : List UInt8)

theorem diagnostics_eq_nil_iff (r : Reading) : r.diagnostics = [] ↔ r.reports = [] :=
  List.reverse_eq_nil_iff

/-- A derivation in the lax grammar is read to the end, and reported just when it is incomplete. -/
theorem parse_of_isFile {body : List Statement} (h : IsFile false (Stream.ofBytes U bytes).tokens body) :
    (parse U name directory bytes).1 = ⟨name, directory, body⟩ ∧
      ((parse U name directory bytes).2 = [] ↔ ∀ s ∈ body, s.Complete) := by
  obtain ⟨hbody, hreports⟩ :=
    Statement.readAllFrom_of_isFile h [] (Reading.start (Stream.ofBytes U bytes)) rfl
  refine ⟨?_, ?_⟩
  · simpa [parse, Statement.readAll] using hbody
  · rw [parse, diagnostics_eq_nil_iff, Statement.readAll, hreports]
    simp [Reading.start]

/-- A file without diagnostics is derived in the strict grammar. -/
theorem isFile_of_parse (h : (parse U name directory bytes).2 = []) :
    IsFile true (Stream.ofBytes U bytes).tokens (parse U name directory bytes).1.body := by
  obtain ⟨-, hderived⟩ := Statement.readAllFrom_derived []
    (Reading.start (Stream.ofBytes U bytes)) (Stream.laid_ofBytes U bytes) (.inl rfl)
  obtain ⟨body, hbody, hfile⟩ := hderived ((diagnostics_eq_nil_iff _).mp h)
  rw [parse, Statement.readAll, hbody]
  exact hfile

/-- The reader accepts exactly the strict grammar, and gives the one tree that it derives. -/
theorem parse_accepts_iff :
    ((parse U name directory bytes).2 = [] ↔
        ∃ body, IsFile true (Stream.ofBytes U bytes).tokens body) ∧
      ∀ body, IsFile true (Stream.ofBytes U bytes).tokens body →
        (parse U name directory bytes).1 = ⟨name, directory, body⟩ := by
  refine ⟨⟨fun h => ⟨_, isFile_of_parse U name directory bytes h⟩, ?_⟩, fun body h => ?_⟩
  · rintro ⟨body, h⟩
    exact (parse_of_isFile U name directory bytes h.lax.1).2.mpr h.lax.2
  · exact (parse_of_isFile U name directory bytes h.lax.1).1

end SourceFile

end FirSyntax
