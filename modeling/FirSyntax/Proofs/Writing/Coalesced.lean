import FirSyntax.Proofs.Writing.Groups
import FirSyntax.Proofs.Writing.Line

/-!
# Trees with clauses put together

A tree has the clauses of another one put together when its lists of clauses declare the same and
cannot be shortened, from the outermost statement to the innermost block. The writer's tree is one of
that kind, and all such trees are alike up to where things stand.
-/
namespace FirSyntax

open Grammar Unicode

variable {U : CharData}

/-- The same header, with its parameters put together. -/
structure Header.Coalesced (header header' : Header) : Prop where
  parameters : Clause.Coalesced header.parameters header'.parameters
  rest : header' = { header with parameters := header'.parameters }

theorem Header.WellShaped.coalesced_merge {header : Header} (h : header.WellShaped U) :
    header.Coalesced header.merge :=
  ⟨Clause.coalesced_coalesce fun clause hclause => (h.parameters clause hclause).nonempty, rfl⟩

theorem Header.Coalesced.relocate_eq {header header' : Header} (h : header.Coalesced header')
    (hshaped : header.WellShaped U) : header'.relocate .erase = header.merge.relocate .erase := by
  have hparameters := h.parameters.relocate_eq fun clause hclause =>
    (hshaped.parameters clause hclause).nonempty
  rw [h.rest, relocate, relocate, merge, hparameters]

namespace Statement

/-- The same statement, with the clauses in it put together. -/
inductive Coalesced : Statement → Statement → Prop where
  | empty {comment l} : Coalesced (.empty comment l) (.empty comment l)
  | returns {value comment l} : Coalesced (.returns value comment l) (.returns value comment l)
  | consts {clauses groups comment l} : Clause.Coalesced clauses groups →
      Coalesced (.consts clauses comment l) (.consts groups comment l)
  | vars {clauses groups comment l} : Clause.Coalesced clauses groups →
      Coalesced (.vars clauses comment l) (.vars groups comment l)
  | imports {paths comment l} : Coalesced (.imports paths comment l) (.imports paths comment l)
  | moduleName {path comment l} : Coalesced (.moduleName path comment l) (.moduleName path comment l)
  | procedure {header header' body body'} : header.Coalesced header' →
      List.Forall₂ Coalesced body body' →
      Coalesced (.procedure header body) (.procedure header' body')

variable {place : Place} {s s' : Statement} {body body' : List Statement}

theorem WellShaped.coalesced_merge (h : s.WellShaped U place) : s.Coalesced s.merge := by
  induction s using inductionOn generalizing place with
  | line s hline =>
    cases h with
    | empty => exact .empty
    | returns => exact .returns
    | consts _ hclauses =>
      exact .consts (Clause.coalesced_coalesce fun clause hclause => (hclauses clause hclause).nonempty)
    | vars _ hclauses =>
      exact .vars (Clause.coalesced_coalesce fun clause hclause => (hclauses clause hclause).nonempty)
    | imports => exact .imports
    | moduleName => exact .moduleName
    | procedure => cases hline
  | procedure header body ih =>
    cases h with
    | procedure hheader hbody =>
      rw [merge, mergeAll_eq_map]
      refine .procedure hheader.coalesced_merge (List.forall₂_map_right_iff.mpr ?_)
      exact List.forall₂_same.mpr fun s hs => ih s hs (hbody s hs)

/-- Bodies are alike when their statements are, one by one. -/
theorem map_relocate_eq (h : List.Forall₂ Coalesced body body')
    (heq : ∀ s ∈ body, ∀ s', s.Coalesced s' → s'.relocate .erase = s.merge.relocate .erase) :
    body'.map (relocate .erase) = (body.map merge).map (relocate .erase) := by
  induction h with
  | nil => rfl
  | cons hs _ ih =>
    rw [List.forall_mem_cons] at heq
    rw [List.map_cons, heq.1 _ hs, ih heq.2]
    rfl

theorem Coalesced.relocate_eq (h : s.Coalesced s') (hshaped : s.WellShaped U place) :
    s'.relocate .erase = s.merge.relocate .erase := by
  induction s using inductionOn generalizing s' place with
  | line s hline =>
    cases h with
    | empty | returns | imports | moduleName => rfl
    | consts hgroups =>
      cases hshaped with
      | consts _ hclauses =>
        rw [merge, relocate, relocate,
          hgroups.relocate_eq fun clause hclause => (hclauses clause hclause).nonempty]
    | vars hgroups =>
      cases hshaped with
      | vars _ hclauses =>
        rw [merge, relocate, relocate,
          hgroups.relocate_eq fun clause hclause => (hclauses clause hclause).nonempty]
    | procedure => cases hline
  | procedure header body ih =>
    cases h with
    | procedure hheader hbody =>
      cases hshaped with
      | procedure hshaped hbodies =>
        have hsame := map_relocate_eq hbody fun s hs _ hs' => ih s hs hs' (hbodies s hs)
        rw [merge, relocate, relocate, relocateAll_eq_map, relocateAll_eq_map, mergeAll_eq_map, hsame,
          hheader.relocate_eq hshaped]

/-- The clauses of a body can be put together. -/
theorem exists_coalesced (h : ∀ s ∈ body, s.WellShaped U place) :
    ∃ body', List.Forall₂ Coalesced body body' := by
  refine ⟨body.map merge, List.forall₂_map_right_iff.mpr ?_⟩
  exact List.forall₂_same.mpr fun s hs => (h s hs).coalesced_merge

/-- Whichever way they are put together, it is the writer's up to where things stand. -/
theorem coalesced_relocate_eq (h : ∀ s ∈ body, s.WellShaped U place)
    (hbody : List.Forall₂ Coalesced body body') :
    body'.map (relocate .erase) = (body.map merge).map (relocate .erase) :=
  map_relocate_eq hbody fun s hs _ hs' => hs'.relocate_eq (h s hs)

end Statement

end FirSyntax
