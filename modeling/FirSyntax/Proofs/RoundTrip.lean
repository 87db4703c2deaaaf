import FirSyntax.Proofs.Acceptance
import FirSyntax.Proofs.Reading.Shape
import FirSyntax.Proofs.Writing.Coalesced
import FirSyntax.Proofs.Writing.Statement

/-!
# Writing and reading

Reading undoes writing: the text of a well-shaped file is read as the file with its clauses put
together, and only what the grammar forbids in such a file is reported. What is read is well-shaped,
so the canonical text of any source is a fixed point.
-/
namespace FirSyntax.SourceFile

open Token Grammar Unicode Source

variable {U : CharData} {file : SourceFile}

/-- The text of a file is derived in the lax grammar as the file, and is read as that. -/
theorem parseText_write (hU : U.BlanksApart) (h : ∀ s ∈ file.body, s.WellShaped U .file) :
    (parseText U file.write).1.body.map (Statement.relocate .erase) =
        (file.body.map Statement.merge).map (Statement.relocate .erase) ∧
      ((parseText U file.write).2 = [] ↔ ∀ s ∈ (parseText U file.write).1.body, s.Complete) := by
  obtain ⟨body, hfile, hsame⟩ := Statement.isFile_ofBytes_writeAll hU h
  obtain ⟨hparse, hreported⟩ := parse_of_isFile U "" "" (utf8 file.write) hfile
  rw [parseText, hparse]
  exact ⟨hsame, hreported⟩

/-- The text of a well-shaped file reads back as the file with its clauses put together, up to where
things stand. It is reported just when, in the file that is put together, a constant lacks its value
or has several names, or a procedure has no body. -/
theorem parse_write (hU : U.BlanksApart) (h : ∀ s ∈ file.body, s.WellShaped U .file) :
    (∃ body, List.Forall₂ Statement.Coalesced file.body body) ∧
      ∀ body, List.Forall₂ Statement.Coalesced file.body body →
        (parseText U file.write).1.body.map (Statement.relocate .erase) =
            body.map (Statement.relocate .erase) ∧
          ((parseText U file.write).2 = [] ↔ ∀ s ∈ body, s.Complete) := by
  obtain ⟨hsame, hreported⟩ := parseText_write hU h
  refine ⟨Statement.exists_coalesced h, fun body hbody => ?_⟩
  have hread := hsame.trans (Statement.coalesced_relocate_eq h hbody).symm
  exact ⟨hread, hreported.trans (Statement.complete_congr hread)⟩

/-- The two parameters of a procedure are read back as one clause. -/
theorem parse_write_procedure :
    let header : Header := ⟨⟨"p", .unwritten⟩, [⟨[⟨"a", .unwritten⟩], .unspecified, none⟩,
      ⟨[⟨"b", .unwritten⟩], .unspecified, none⟩], .unspecified, none, .unwritten⟩
    let header' : Header := { header with
      parameters := [⟨[⟨"a", .unwritten⟩, ⟨"b", .unwritten⟩], .unspecified, none⟩] }
    let body := [Statement.returns (some (.dot (.int 1 .unwritten) ⟨"x", .unwritten⟩ .unwritten)) none
      .unwritten]
    let parsed := parseText .standard (write ⟨"", "", [.procedure header body]⟩)
    parsed.1.body.map (Statement.relocate .erase) = [.procedure header' body] ∧ parsed.2 = [] := by
  intro header header' body parsed
  have hidentifier : ∀ name ∈ ["p", "a", "b", "x"], IsIdentifier .standard name := by
    simp only [List.forall_mem_cons, List.not_mem_nil, false_implies, implies_true, and_true]
    exact ⟨.of_letters (by decide) (by decide) (by decide), .of_letters (by decide) (by decide) (by decide),
      .of_letters (by decide) (by decide) (by decide), .of_letters (by decide) (by decide) (by decide)⟩
  have hclause (name : String) (h : name ∈ ["p", "a", "b", "x"]) :
      Clause.WellShaped .standard ⟨[⟨name, .unwritten⟩], .unspecified, none⟩ :=
    ⟨by simp, by simpa using hidentifier name h, wellShaped_unspecified, by simp⟩
  have hwell : (Statement.procedure header body).WellShaped .standard .file := by
    have hvalue : Expr.WellShaped .standard
        (.dot (.int 1 .unwritten) ⟨"x", .unwritten⟩ .unwritten) := .dot .int (hidentifier "x" (by decide))
    refine .procedure ⟨hidentifier "p" (by decide), ?_, wellShaped_unspecified, by simp [header]⟩ ?_
    · simpa [header] using ⟨hclause "a" (by decide), hclause "b" (by decide)⟩
    · simpa [body] using .returns (by simpa using hvalue) (by simp)
  have hparameters : Clause.Coalesced header.parameters header'.parameters :=
    ⟨rfl, by simp [header'], List.isChain_singleton _⟩
  let file : SourceFile := ⟨"", "", [.procedure header body]⟩
  obtain ⟨-, hread⟩ := @parse_write _ file CharData.blanksApart_standard (by simpa [file] using hwell)
  obtain ⟨hbody, hreported⟩ := hread [.procedure header' body]
    (.cons (.procedure ⟨hparameters, rfl⟩ (.cons .returns .nil)) .nil)
  refine ⟨hbody, hreported.mpr ?_⟩
  simpa [body] using .procedure (by simp) (by simpa using .returns)

/-- The text of whatever was read reads back as what was read with its clauses put together, up to
where things stand, and is its own text. It has no diagnostic if the source had none. -/
theorem parse_write_parse (hU : U.KeepsWords) {name directory : String} {bytes : List UInt8}
    {diagnostics : List Diagnostic} (h : parse U name directory bytes = (file, diagnostics)) :
    (∃ body, List.Forall₂ Statement.Coalesced file.body body) ∧
      (∀ body, List.Forall₂ Statement.Coalesced file.body body →
        (parseText U file.write).1.body.map (Statement.relocate .erase) =
          body.map (Statement.relocate .erase)) ∧
      (parseText U file.write).1.write = file.write ∧
      (diagnostics = [] → (parseText U file.write).2 = []) := by
  have hwell := wellShaped_parse hU name directory bytes
  have hstrict := isFile_of_parse U name directory bytes
  rw [h] at hwell hstrict
  obtain ⟨hsame, hreported⟩ := parseText_write hU.blanks hwell
  refine ⟨Statement.exists_coalesced hwell, fun body hbody => ?_, Statement.writeAll_congr hsame 0,
    fun hnil => ?_⟩
  · exact hsame.trans (Statement.coalesced_relocate_eq hwell hbody).symm
  · have hcomplete := (hstrict hnil).lax.2
    rw [hreported, Statement.complete_congr hsame, List.forall_mem_map]
    exact fun s hs => (hcomplete s hs).merge

/-- A stray line is dropped, and what is left is canonical once its two clauses are put together. -/
theorem parse_write_parse_stray :
    (parse .ascii "" "" (utf8 "var a;b\n) #\n")).1.write = "var a, b\n" ∧
      (parseText .ascii "var a, b\n").1.body.map (Statement.relocate .erase) =
        [.vars [⟨[⟨"a", .unwritten⟩, ⟨"b", .unwritten⟩], .unspecified, none⟩] none .unwritten] ∧
      (parseText .ascii "var a, b\n").1.write = "var a, b\n" := by
  have hwrite : (parse .ascii "" "" (utf8 "var a;b\n) #\n")).1.write = "var a, b\n" := by
    decide +kernel
  have hbody : (parse .ascii "" "" (utf8 "var a;b\n) #\n")).1.body =
      [.vars [⟨[⟨"a", ⟨1, 5⟩⟩], .unspecified, none⟩, ⟨[⟨"b", ⟨1, 7⟩⟩], .unspecified, none⟩] none
        ⟨1, 1⟩] := by
    have hvars : (parse .ascii "" "" (utf8 "var a;b\n) #\n")).1.body.map (fun s => match s with
          | .vars clauses comment l => some (clauses, comment, l)
          | _ => none) =
        [some ([⟨[⟨"a", ⟨1, 5⟩⟩], .unspecified, none⟩, ⟨[⟨"b", ⟨1, 7⟩⟩], .unspecified, none⟩], none,
          ⟨1, 1⟩)] := by decide +kernel
    obtain ⟨s, hs, heq⟩ := List.map_eq_singleton_iff.mp hvars
    rw [hs]
    cases s with
    | vars =>
      cases heq
      rfl
    | _ => cases heq
  obtain ⟨file, diagnostics, hparse⟩ : ∃ file diagnostics,
      parse .ascii "" "" (utf8 "var a;b\n) #\n") = (file, diagnostics) := ⟨_, _, rfl⟩
  obtain ⟨-, hread, hagain, -⟩ := parse_write_parse CharData.keepsWords_ascii hparse
  rw [hparse] at hwrite hbody ⊢
  have hgroups : Clause.Coalesced
      [⟨[⟨"a", ⟨1, 5⟩⟩], .unspecified, none⟩, ⟨[⟨"b", ⟨1, 7⟩⟩], .unspecified, none⟩]
      [⟨[⟨"a", ⟨1, 5⟩⟩, ⟨"b", ⟨1, 7⟩⟩], .unspecified, none⟩] :=
    ⟨rfl, by simp, List.isChain_singleton _⟩
  have hsame := hread [.vars _ none ⟨1, 1⟩] (by rw [hbody]; exact .cons (.vars hgroups) .nil)
  rw [hwrite] at hagain hsame
  exact ⟨hwrite, hsame, hagain⟩

end FirSyntax.SourceFile
