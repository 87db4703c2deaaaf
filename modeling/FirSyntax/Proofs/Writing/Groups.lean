import FirSyntax.Proofs.Writing.Merging

/-!
# Groups of clauses

What clauses declare, one after another, does not change when they are put together as they are
written, and no two neighbouring groups can be put together any more. Both together determine the
groups, up to where things stand.
-/
namespace FirSyntax

/-- A name with its type, or the whole of a clause that has an initial value. -/
inductive Declaration where
  | plain (name : Name) (type : TypeRef)
  | initialized (clause : Clause)
deriving DecidableEq, Repr

namespace Declaration

def relocate (φ : Location → Location) : Declaration → Declaration
  | plain name type => .plain (name.relocate φ) (type.relocate φ)
  | initialized clause => .initialized (clause.relocate φ)

/-- The clause of a declaration that stands alone. -/
def clause : Declaration → Clause
  | plain name type => ⟨[name], type, none⟩
  | initialized clause => clause

end Declaration

theorem TypeRef.same_iff {s t : TypeRef} :
    s.same t = true ↔ s.relocate .erase = t.relocate .erase := by
  simp [same, relocate, Location.erase]

namespace Clause

variable {a b clause group : Clause} {clauses clauses' groups rest : List Clause}

theorem joins_iff : a.joins b = true ↔ a.value = none ∧ b.value = none ∧ a.type.same b.type = true := by
  simp [joins, and_assoc]

theorem not_joins_iff :
    a.joins b = false ↔ ¬ (a.value = none ∧ b.value = none ∧ a.type.same b.type = true) := by
  rw [← joins_iff, Bool.not_eq_true]

/-- What a clause declares, in order. A type is taken without its place, since of the types that are
put together only the first one stands in the tree. -/
def declarations (clause : Clause) : List Declaration :=
  match clause.value with
  | none => clause.names.map (.plain · (clause.type.relocate .erase))
  | some _ => [.initialized clause]

theorem declarations_of_none (h : clause.value = none) :
    clause.declarations = clause.names.map (.plain · (clause.type.relocate .erase)) := by
  rw [declarations, h]

theorem declarations_relocate (clause : Clause) :
    (clause.relocate .erase).declarations = clause.declarations.map (.relocate .erase) := by
  obtain ⟨names, type, value⟩ := clause
  cases value with
  | none =>
    simp only [declarations, relocate, Option.map_none, List.map_map]
    rfl
  | some value => rfl

theorem flatMap_declarations_relocate (clauses : List Clause) :
    (clauses.map (relocate .erase)).flatMap declarations =
      (clauses.flatMap declarations).map (.relocate .erase) := by
  rw [List.flatMap_map, List.map_flatMap, funext declarations_relocate]

/-! ## Groups declare what their clauses do -/

theorem declarations_join (h : a.joins b = true) :
    ({ a with names := a.names ++ b.names } : Clause).declarations =
      a.declarations ++ b.declarations := by
  obtain ⟨ha, hb, htype⟩ := joins_iff.mp h
  rw [declarations_of_none ha, declarations_of_none hb, ← TypeRef.same_iff.mp htype,
    ← List.map_append]
  exact declarations_of_none ha

theorem declarations_coalesceFrom (group : Clause) (clauses : List Clause) :
    (coalesceFrom group clauses).flatMap declarations =
      group.declarations ++ clauses.flatMap declarations := by
  induction clauses generalizing group with
  | nil => rw [coalesceFrom, List.flatMap_singleton, List.flatMap_nil, List.append_nil]
  | cons clause clauses ih =>
    rw [coalesceFrom, List.flatMap_cons]
    split
    · next hjoins => rw [ih, declarations_join hjoins, List.append_assoc]
    · rw [List.flatMap_cons, ih]

theorem declarations_coalesce (clauses : List Clause) :
    (coalesce clauses).flatMap declarations = clauses.flatMap declarations := by
  cases clauses with
  | nil => rfl
  | cons clause clauses => exact declarations_coalesceFrom clause clauses

/-! ## Declarations determine the groups -/

theorem coalesceFrom_of_not_joins (h : group.joins clause = false) :
    coalesceFrom group (clause :: rest) = group :: coalesce (clause :: rest) := by
  rw [coalesceFrom, if_neg (by simp [h]), coalesce]

/-- Names of one type that stand alone join a group of this type, one after another. -/
theorem coalesceFrom_names (group : Clause) {type : TypeRef} (hvalue : group.value = none)
    (htype : group.type.same type = true) (names : List Name) (rest : List Clause) :
    coalesceFrom group (names.map (fun n => ⟨[n], type, none⟩) ++ rest) =
      coalesceFrom { group with names := group.names ++ names } rest := by
  induction names generalizing group with
  | nil => rw [List.map_nil, List.nil_append, List.append_nil]
  | cons name names ih =>
    have hjoins : group.joins ⟨[name], type, none⟩ = true := joins_iff.mpr ⟨hvalue, rfl, htype⟩
    have hstep := ih { group with names := group.names ++ [name] } hvalue htype
    rw [List.append_assoc, List.singleton_append] at hstep
    rw [List.map_cons, List.cons_append, coalesceFrom, if_pos hjoins]
    exact hstep

/-- A clause that is taken apart is put together again. -/
theorem coalesce_declarations (hne : clause.names ≠ [])
    (hplace : clause.type.relocate .erase = clause.type) (rest : List Clause) :
    coalesce (clause.declarations.map Declaration.clause ++ rest) = coalesceFrom clause rest := by
  obtain ⟨names, type, value⟩ := clause
  cases value with
  | some value => rfl
  | none =>
    obtain ⟨name, names, rfl⟩ := List.exists_cons_of_ne_nil hne
    have hsame : type.same type = true := TypeRef.same_iff.mpr rfl
    calc coalesce ((declarations ⟨name :: names, type, none⟩).map Declaration.clause ++ rest)
        = coalesceFrom ⟨[name], type, none⟩ (names.map (fun n => ⟨[n], type, none⟩) ++ rest) := by
          simp only [declarations, List.map_map, List.map_cons, List.cons_append, coalesce,
            show type.relocate .erase = type from hplace]
          rfl
      _ = coalesceFrom ⟨name :: names, type, none⟩ rest := coalesceFrom_names _ rfl hsame names rest

/-- A clause joins a group also when it is taken apart. -/
theorem coalesceFrom_declarations (group : Clause) (hne : clause.names ≠ [])
    (hplace : clause.type.relocate .erase = clause.type) (rest : List Clause) :
    coalesceFrom group (clause.declarations.map Declaration.clause ++ rest) =
      coalesceFrom group (clause :: rest) := by
  cases hjoins : group.joins clause with
  | true =>
    obtain ⟨hgroup, hclause, htype⟩ := joins_iff.mp hjoins
    rw [declarations_of_none hclause, hplace, List.map_map, coalesceFrom, if_pos hjoins]
    exact coalesceFrom_names group hgroup htype clause.names rest
  | false =>
    rw [coalesceFrom_of_not_joins hjoins, coalesce, ← coalesce_declarations hne hplace]
    obtain ⟨first, others, hfirst, hsame⟩ : ∃ first others,
        clause.declarations.map Declaration.clause = first :: others ∧
          first.type = clause.type ∧ first.value = clause.value := by
      obtain ⟨names, type, value⟩ := clause
      cases value with
      | some value => exact ⟨_, [], rfl, rfl, rfl⟩
      | none =>
        obtain ⟨name, names, rfl⟩ := List.exists_cons_of_ne_nil hne
        exact ⟨_, _, rfl, hplace, rfl⟩
    have hnot : group.joins first = false := by rw [joins_congr ⟨rfl, rfl⟩ hsame, hjoins]
    rw [hfirst, List.cons_append, coalesceFrom_of_not_joins hnot]

/-- The groups of clauses are those of what they declare. -/
theorem coalesceFrom_flatMap (group : Clause)
    (h : ∀ clause ∈ clauses, clause.names ≠ [] ∧ clause.type.relocate .erase = clause.type) :
    coalesceFrom group ((clauses.flatMap declarations).map Declaration.clause) =
      coalesceFrom group clauses := by
  induction clauses generalizing group with
  | nil => rfl
  | cons clause clauses ih =>
    rw [List.forall_mem_cons] at h
    rw [List.flatMap_cons, List.map_append, coalesceFrom_declarations group h.1.1 h.1.2, coalesceFrom,
      coalesceFrom, ih _ h.2, ih _ h.2]

theorem coalesce_flatMap
    (h : ∀ clause ∈ clauses, clause.names ≠ [] ∧ clause.type.relocate .erase = clause.type) :
    coalesce ((clauses.flatMap declarations).map Declaration.clause) = coalesce clauses := by
  cases clauses with
  | nil => rfl
  | cons clause clauses =>
    rw [List.forall_mem_cons] at h
    rw [List.flatMap_cons, List.map_append, coalesce_declarations h.1.1 h.1.2,
      coalesceFrom_flatMap clause h.2, coalesce]

/-- Up to where things stand, groups are a function of the declarations. -/
theorem coalesce_erase (h : ∀ clause ∈ clauses, clause.names ≠ []) :
    (coalesce clauses).map (relocate .erase) =
      coalesce (((clauses.flatMap declarations).map (.relocate .erase)).map Declaration.clause) := by
  rw [← flatMap_declarations_relocate, coalesce_flatMap, coalesce_relocate]
  intro clause hclause
  obtain ⟨clause, hmem, rfl⟩ := List.mem_map.mp hclause
  exact ⟨by simpa [relocate] using h clause hmem, rfl⟩

theorem coalesce_eq_iff (h : ∀ clause ∈ clauses, clause.names ≠ [])
    (h' : ∀ clause ∈ clauses', clause.names ≠ []) :
    (coalesce clauses).map (relocate .erase) = (coalesce clauses').map (relocate .erase) ↔
      (clauses.flatMap declarations).map (Declaration.relocate .erase) =
        (clauses'.flatMap declarations).map (Declaration.relocate .erase) := by
  constructor
  · intro heq
    rw [← declarations_coalesce clauses, ← declarations_coalesce clauses',
      ← flatMap_declarations_relocate, ← flatMap_declarations_relocate, heq]
  · intro heq
    rw [coalesce_erase h, coalesce_erase h', heq]

/-- Clauses with neighbours put together: they declare the same, none is without names, and no two
neighbours are left that have one type and no values. -/
structure Coalesced (clauses groups : List Clause) : Prop where
  declares : groups.flatMap declarations = clauses.flatMap declarations
  named : ∀ group ∈ groups, group.names ≠ []
  apart : groups.IsChain fun a b =>
    ¬ (a.value = none ∧ b.value = none ∧ a.type.relocate .erase = b.type.relocate .erase)

theorem coalesced_coalesce (h : ∀ clause ∈ clauses, clause.names ≠ []) :
    Coalesced clauses (coalesce clauses) where
  declares := declarations_coalesce clauses
  named := coalesce_induction (fun a b ha _ _ => List.append_ne_nil_of_left_ne_nil ha b.names) h
  apart := (settled_coalesce clauses).imp fun a b hnot => by
    rw [← TypeRef.same_iff]
    exact not_joins_iff.mp hnot

theorem Coalesced.settled (h : Coalesced clauses groups) : Settled groups := by
  refine h.apart.imp fun a b hnot => ?_
  rw [← TypeRef.same_iff] at hnot
  exact not_joins_iff.mpr hnot

/-- All ways to put neighbours together are alike. -/
theorem Coalesced.relocate_eq (h : Coalesced clauses groups)
    (hclauses : ∀ clause ∈ clauses, clause.names ≠ []) :
    groups.map (relocate .erase) = (coalesce clauses).map (relocate .erase) := by
  have heq := (coalesce_eq_iff h.named hclauses).mpr (by rw [h.declares])
  rwa [coalesce_of_settled h.settled] at heq

end Clause

end FirSyntax
