import Mathlib.Data.List.Chain
import FirSyntax.Proofs.Grammar.File
import FirSyntax.Proofs.Writing.Expr
import FirSyntax.Writing.Statement

/-!
# Merged trees

A tree is merged by putting its neighbouring clauses together as the writer does. A tree, the merged
tree and a relocated tree are written alike.
-/
namespace FirSyntax

namespace Clause

variable {a b group : Clause} {clauses : List Clause} (φ : Location → Location)

/-- No clause of a list joins the one after it. -/
def Settled (clauses : List Clause) : Prop := clauses.IsChain fun a b => a.joins b = false

/-- Whether a clause joins another depends on types and values only. -/
theorem joins_congr {a' b' : Clause} (ha : a.type = a'.type ∧ a.value = a'.value)
    (hb : b.type = b'.type ∧ b.value = b'.value) : a.joins b = a'.joins b' := by
  rw [joins, joins, ha.1, ha.2, hb.1, hb.2]

/-- The first group has the type and the value of the clause that it began with. -/
theorem coalesceFrom_cons (group : Clause) (clauses : List Clause) :
    ∃ first rest, coalesceFrom group clauses = first :: rest ∧ first.type = group.type ∧
      first.value = group.value := by
  induction clauses generalizing group with
  | nil => exact ⟨group, [], rfl, rfl, rfl⟩
  | cons clause clauses ih =>
    rw [coalesceFrom]
    split
    · exact ih _
    · exact ⟨group, _, rfl, rfl, rfl⟩

theorem settled_coalesceFrom (group : Clause) (clauses : List Clause) :
    Settled (coalesceFrom group clauses) := by
  induction clauses generalizing group with
  | nil => exact List.isChain_singleton _
  | cons clause clauses ih =>
    rw [coalesceFrom]
    split
    · exact ih _
    · next hnot =>
      obtain ⟨first, rest, hfirst, hsame⟩ := coalesceFrom_cons clause clauses
      have hrest := ih clause
      rw [Settled, hfirst] at hrest ⊢
      refine List.isChain_cons_cons.mpr ⟨?_, hrest⟩
      rw [joins_congr ⟨rfl, rfl⟩ hsame]
      simpa using hnot

theorem coalesceFrom_of_settled (h : Settled (group :: clauses)) :
    coalesceFrom group clauses = group :: clauses := by
  induction clauses generalizing group with
  | nil => rfl
  | cons clause clauses ih =>
    obtain ⟨hnot, hrest⟩ := List.isChain_cons_cons.mp h
    rw [coalesceFrom, if_neg (by simp [hnot]), ih hrest]

theorem coalesce_of_settled (h : Settled clauses) : coalesce clauses = clauses := by
  cases clauses with
  | nil => rfl
  | cons clause clauses => exact coalesceFrom_of_settled h

theorem settled_coalesce (clauses : List Clause) : Settled (coalesce clauses) := by
  cases clauses with
  | nil => exact List.isChain_nil
  | cons clause clauses => exact settled_coalesceFrom clause clauses

theorem coalesce_coalesce (clauses : List Clause) : coalesce (coalesce clauses) = coalesce clauses :=
  coalesce_of_settled (settled_coalesce clauses)

theorem coalesce_ne_nil (h : clauses ≠ []) : coalesce clauses ≠ [] := by
  cases clauses with
  | nil => exact absurd rfl h
  | cons clause clauses =>
    obtain ⟨first, rest, hfirst, -⟩ := coalesceFrom_cons clause clauses
    rw [coalesce, hfirst]
    exact List.cons_ne_nil _ _

/-- What holds of clauses, and of two joined ones when it holds of both, holds of merged clauses. -/
theorem coalesceFrom_induction {motive : Clause → Prop}
    (hjoin : ∀ a b, motive a → motive b → a.joins b = true →
      motive { a with names := a.names ++ b.names })
    (hgroup : motive group) (h : ∀ clause ∈ clauses, motive clause) :
    ∀ clause ∈ coalesceFrom group clauses, motive clause := by
  induction clauses generalizing group with
  | nil => simpa [coalesceFrom] using hgroup
  | cons clause clauses ih =>
    rw [List.forall_mem_cons] at h
    rw [coalesceFrom]
    split
    · next hjoins => exact ih (hjoin _ _ hgroup h.1 hjoins) h.2
    · rw [List.forall_mem_cons]
      exact ⟨hgroup, ih h.1 h.2⟩

theorem coalesce_induction {motive : Clause → Prop}
    (hjoin : ∀ a b, motive a → motive b → a.joins b = true →
      motive { a with names := a.names ++ b.names })
    (h : ∀ clause ∈ clauses, motive clause) : ∀ clause ∈ coalesce clauses, motive clause := by
  cases clauses with
  | nil => exact h
  | cons clause clauses =>
    rw [List.forall_mem_cons] at h
    exact coalesceFrom_induction hjoin h.1 h.2

theorem joins_relocate (a b : Clause) : (a.relocate φ).joins (b.relocate φ) = a.joins b := by
  simp [joins, relocate, TypeRef.relocate, TypeRef.same]

theorem coalesceFrom_relocate (group : Clause) (clauses : List Clause) :
    coalesceFrom (group.relocate φ) (clauses.map (relocate φ)) =
      (coalesceFrom group clauses).map (relocate φ) := by
  induction clauses generalizing group with
  | nil => rfl
  | cons clause clauses ih =>
    rw [List.map_cons, coalesceFrom, coalesceFrom, joins_relocate]
    split
    · rw [← ih]
      simp [relocate]
    · rw [ih, List.map_cons]

theorem coalesce_relocate (clauses : List Clause) :
    coalesce (clauses.map (relocate φ)) = (coalesce clauses).map (relocate φ) := by
  cases clauses with
  | nil => rfl
  | cons clause clauses => exact coalesceFrom_relocate φ clause clauses

theorem isConstant_relocate (clause : Clause) :
    (clause.relocate φ).IsConstant ↔ clause.IsConstant := by
  obtain ⟨names, type, value⟩ := clause
  rcases names with _ | ⟨name, _ | ⟨name', names⟩⟩ <;> simp [IsConstant, relocate]

/-- Constants are not joined, since each has a value. -/
theorem coalesce_of_isConstant (h : ∀ clause ∈ clauses, clause.IsConstant) :
    coalesce clauses = clauses := by
  refine coalesce_of_settled ?_
  induction clauses with
  | nil => exact List.isChain_nil
  | cons a clauses ih =>
    rw [List.forall_mem_cons] at h
    cases clauses with
    | nil => exact List.isChain_singleton a
    | cons b clauses =>
      refine List.isChain_cons_cons.mpr ⟨?_, ih h.2⟩
      have hvalue := h.1.2
      cases hv : a.value <;> simp_all [joins]

end Clause

def Header.merge (header : Header) : Header :=
  { header with parameters := Clause.coalesce header.parameters }

namespace Statement

mutual

/-- The statement with its clauses put together, down to those of its blocks. -/
def merge : Statement → Statement
  | consts clauses comment l => .consts (Clause.coalesce clauses) comment l
  | vars clauses comment l => .vars (Clause.coalesce clauses) comment l
  | procedure header body => .procedure header.merge (mergeAll body)
  | statement => statement

def mergeAll : List Statement → List Statement
  | [] => []
  | statement :: rest => merge statement :: mergeAll rest

end

theorem mergeAll_eq_map (statements : List Statement) :
    mergeAll statements = statements.map merge := by
  induction statements with
  | nil => rfl
  | cons statement rest ih => rw [mergeAll, ih, List.map_cons]

end Statement

/-! ## Trees that are written alike -/

section

variable (φ : Location → Location)

theorem Name.texts_relocate (names : List Name) :
    (names.map (relocate φ)).map (·.text) = names.map (·.text) := by
  rw [List.map_map]
  rfl

theorem Expr.looserThan_relocate (e : Expr) (precedence : Nat) :
    (e.relocate φ).looserThan precedence = e.looserThan precedence := by
  cases e <;> rfl

theorem Expr.write_relocate (e : Expr) : (e.relocate φ).write = e.write := by
  induction e with
  | bool value => cases value <;> rfl
  | int | nil | name => rfl
  | dot receiver member l ih =>
    have hoperation : (receiver.relocate φ).isOperation = receiver.isOperation := by
      cases receiver <;> rfl
    have hdot : (receiver.relocate φ).dotText = receiver.dotText := by
      cases receiver <;> rfl
    rw [relocate, write_dot, write_dot, ih, hoperation, hdot]
    rfl
  | binary op left right l ihl ihr =>
    rw [relocate, write, write, ihl, ihr, looserThan_relocate, looserThan_relocate]

theorem DottedName.write_relocate (path : DottedName) : (path.relocate φ).write = path.write := by
  rw [write, relocate, Name.texts_relocate]
  rfl

theorem Clause.write_relocate (clause : Clause) : (clause.relocate φ).write = clause.write := by
  obtain ⟨names, type, value⟩ := clause
  have hvalue : (relocate φ ⟨names, type, value⟩).writeValue = writeValue ⟨names, type, value⟩ := by
    cases value with
    | none => rfl
    | some e => exact congrArg (" = " ++ ·) (Expr.write_relocate φ e)
  rw [write, write, hvalue, relocate, Name.texts_relocate]
  rfl

theorem Clause.writeAll_relocate (clauses : List Clause) :
    writeAll (clauses.map (relocate φ)) = writeAll clauses := by
  rw [writeAll, writeAll, coalesce_relocate, List.map_map, Function.comp_def,
    funext (write_relocate φ)]

theorem Clause.writeAll_coalesce (clauses : List Clause) :
    writeAll (coalesce clauses) = writeAll clauses := by
  rw [writeAll, writeAll, coalesce_coalesce]

theorem Header.write_relocate (header : Header) : (header.relocate φ).write = header.write := by
  rw [write, write, relocate, Clause.writeAll_relocate]
  rfl

theorem Header.write_merge (header : Header) : header.merge.write = header.write := by
  rw [write, write, merge, Clause.writeAll_coalesce]
  rfl

end

namespace Statement

theorem linesOfAll_eq_flatMap (level : Nat) (statements : List Statement) :
    linesOfAll level statements = statements.flatMap (lines level) := by
  induction statements with
  | nil => rfl
  | cons s rest ih => rw [linesOfAll, ih, List.flatMap_cons]

theorem lines_relocate (φ : Location → Location) (s : Statement) (level : Nat) :
    lines level (s.relocate φ) = lines level s := by
  induction s using inductionOn generalizing level with
  | line s hline =>
    cases s with
    | empty comment => cases comment <;> rfl
    | returns value comment l =>
      cases value with
      | none => rfl
      | some e =>
        rw [relocate, lines, lines, Option.map_some, writeReturned, Expr.write_relocate, writeReturned]
    | consts | vars => rw [relocate, lines, lines, Clause.writeAll_relocate]
    | imports paths comment l =>
      rw [relocate, lines, lines, List.map_map, Function.comp_def, funext (DottedName.write_relocate φ)]
    | moduleName path comment l => rw [relocate, lines, lines, DottedName.write_relocate]
    | procedure => cases hline
  | procedure header body ih =>
    have hbody : linesOfAll (level + 1) (body.map (relocate φ)) = linesOfAll (level + 1) body := by
      rw [linesOfAll_eq_flatMap, linesOfAll_eq_flatMap, List.flatMap_map]
      exact List.flatMap_congr fun s hs => ih s hs (level + 1)
    rw [relocate, lines, lines, relocateAll_eq_map, Header.write_relocate, hbody]
    rfl

theorem lines_merge (s : Statement) (level : Nat) : lines level s.merge = lines level s := by
  induction s using inductionOn generalizing level with
  | line s hline =>
    cases s with
    | consts | vars => rw [merge, lines, lines, Clause.writeAll_coalesce]
    | procedure => cases hline
    | _ => rfl
  | procedure header body ih =>
    have hbody : linesOfAll (level + 1) (body.map merge) = linesOfAll (level + 1) body := by
      rw [linesOfAll_eq_flatMap, linesOfAll_eq_flatMap, List.flatMap_map]
      exact List.flatMap_congr fun s hs => ih s hs (level + 1)
    rw [merge, lines, lines, mergeAll_eq_map, Header.write_merge, hbody]
    rfl

/-- Statements that are alike once merged and without their locations have the same text. -/
theorem writeAll_congr {φ : Location → Location} {body body' : List Statement}
    (h : body'.map (relocate φ) = (body.map merge).map (relocate φ)) (level : Nat) :
    writeAll level body' = writeAll level body := by
  have hlines (ss : List Statement) :
      (ss.map (relocate φ)).flatMap (lines level) = ss.flatMap (lines level) := by
    rw [List.flatMap_map, funext fun s => lines_relocate φ s level]
  rw [writeAll, writeAll, linesOfAll_eq_flatMap, linesOfAll_eq_flatMap, ← hlines body', h, hlines,
    List.flatMap_map, funext fun s => lines_merge s level]

theorem Complete.relocate {φ : Location → Location} {s : Statement} (h : s.Complete) :
    (s.relocate φ).Complete := by
  induction s using inductionOn with
  | line s hline =>
    cases h with
    | empty => exact .empty
    | returns => exact .returns
    | consts hconstant =>
      refine .consts fun clause hclause => ?_
      obtain ⟨clause, hmem, rfl⟩ := List.mem_map.mp hclause
      exact (Clause.isConstant_relocate φ clause).mpr (hconstant clause hmem)
    | vars => exact .vars
    | imports => exact .imports
    | moduleName => exact .moduleName
    | procedure => cases hline
  | procedure header body ih =>
    cases h with
    | procedure hne hbody =>
      rw [Statement.relocate, relocateAll_eq_map]
      refine .procedure (by simpa using hne) fun s hs => ?_
      obtain ⟨s, hmem, rfl⟩ := List.mem_map.mp hs
      exact ih s hmem (hbody s hmem)

theorem complete_of_relocate {φ : Location → Location} {s : Statement} (h : (s.relocate φ).Complete) :
    s.Complete := by
  induction s using inductionOn with
  | line s hline =>
    cases s with
    | empty => exact .empty
    | returns => exact .returns
    | consts clauses =>
      rw [Statement.relocate] at h
      cases h with
      | consts hconstant =>
        exact .consts fun clause hclause => (Clause.isConstant_relocate φ clause).mp
          (hconstant _ (List.mem_map_of_mem hclause))
    | vars => exact .vars
    | imports => exact .imports
    | moduleName => exact .moduleName
    | procedure => cases hline
  | procedure header body ih =>
    rw [Statement.relocate, relocateAll_eq_map] at h
    cases h with
    | procedure hne hbody =>
      exact .procedure (by simpa using hne) fun s hs => ih s hs (hbody _ (List.mem_map_of_mem hs))

/-- Whether all of a body is complete does not depend on where it stands. -/
theorem complete_congr {φ : Location → Location} {body body' : List Statement}
    (h : body'.map (relocate φ) = body.map (relocate φ)) :
    (∀ s ∈ body', s.Complete) ↔ ∀ s ∈ body, s.Complete := by
  have hall (ss : List Statement) :
      (∀ s ∈ ss, s.Complete) ↔ ∀ s ∈ ss.map (relocate φ), s.Complete := by
    rw [List.forall_mem_map]
    exact forall₂_congr fun s _ => ⟨Complete.relocate, complete_of_relocate⟩
  rw [hall, h, ← hall]

theorem Complete.merge {s : Statement} (h : s.Complete) : s.merge.Complete := by
  induction s using inductionOn with
  | line s hline =>
    cases h with
    | consts hconstant =>
      rw [Statement.merge, Clause.coalesce_of_isConstant hconstant]
      exact .consts hconstant
    | empty => exact .empty
    | returns => exact .returns
    | vars => exact .vars
    | imports => exact .imports
    | moduleName => exact .moduleName
    | procedure => cases hline
  | procedure header body ih =>
    cases h with
    | procedure hne hbody =>
      rw [Statement.merge, mergeAll_eq_map]
      refine .procedure (by simpa using hne) fun s hs => ?_
      obtain ⟨s, hmem, rfl⟩ := List.mem_map.mp hs
      exact ih s hmem (hbody s hmem)

end Statement

end FirSyntax
