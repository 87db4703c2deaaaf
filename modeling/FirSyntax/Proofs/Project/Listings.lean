import FirSyntax.Proofs.Project.Walks
import Mathlib.Data.List.Forall2

/-!
# Listings of directories

A file system holds entries of distinct names, and lists them in any order. Two trees are alike when
they differ in the order of listings alone. A path leads to what is alike in both, or fails alike.
-/
namespace FirSyntax.Project

/-- The entries of a directory as a file system holds them: each has a name of its own, and so it is
at any depth below. -/
inductive IsListing : List (String × Entry) → Prop where
  | nil : IsListing []
  | file {name content entries} : IsProper name → name ∉ entries.map Prod.fst → IsListing entries →
      IsListing ((name, .file content) :: entries)
  | directory {name inner entries} : IsProper name → name ∉ entries.map Prod.fst → IsListing inner →
      IsListing entries → IsListing ((name, .directory inner) :: entries)

/-- The same entries in another order, and so at any depth below. -/
inductive Relisted : List (String × Entry) → List (String × Entry) → Prop where
  | nil : Relisted [] []
  | file {name content entries entries'} : Relisted entries entries' →
      Relisted ((name, .file content) :: entries) ((name, .file content) :: entries')
  | directory {name inner inner' entries entries'} : Relisted inner inner' →
      Relisted entries entries' →
      Relisted ((name, .directory inner) :: entries) ((name, .directory inner') :: entries')
  | swap {x y entries} : Relisted (x :: y :: entries) (y :: x :: entries)
  | trans {entries entries' entries''} : Relisted entries entries' → Relisted entries' entries'' →
      Relisted entries entries''

/-- What differs in the order of listings alone. -/
inductive Entry.Alike : Entry → Entry → Prop where
  | file {content} : Alike (file content) (file content)
  | directory {entries entries'} : IsListing entries → Relisted entries entries' →
      Alike (directory entries) (directory entries')

variable {entries entries' : List (String × Entry)} {x : String × Entry} {name : String}

theorem Entry.Alike.trans {e e' e'' : Entry} (h : e.Alike e') (h' : e'.Alike e'') : e.Alike e'' := by
  cases h with
  | file => exact h'
  | directory hlisting hrelisted =>
    cases h' with
    | directory _ hrelisted' => exact .directory hlisting (hrelisted.trans hrelisted')

namespace IsListing

/-- One entry and the others, and a directory is in order itself. -/
theorem cons_iff : IsListing (x :: entries) ↔ IsProper x.1 ∧ x.1 ∉ entries.map Prod.fst ∧
    (∀ inner, x.2 = .directory inner → IsListing inner) ∧ IsListing entries := by
  constructor
  · intro h
    cases h with
    | file hname hapart hrest => exact ⟨hname, hapart, by simp, hrest⟩
    | directory hname hapart hinner hrest =>
      refine ⟨hname, hapart, ?_, hrest⟩
      rintro _ ⟨⟩
      exact hinner
  · rintro ⟨hname, hapart, hinner, hrest⟩
    obtain ⟨name, entry⟩ := x
    cases entry with
    | file content => exact .file hname hapart hrest
    | directory inner => exact .directory hname hapart (hinner inner rfl) hrest

theorem of_mem (h : IsListing entries) (hx : x ∈ entries) :
    IsProper x.1 ∧ ∀ inner, x.2 = .directory inner → IsListing inner := by
  induction entries with
  | nil => cases hx
  | cons y entries ih =>
    obtain ⟨hname, -, hinner, hrest⟩ := cons_iff.mp h
    rcases List.mem_cons.mp hx with rfl | hx
    · exact ⟨hname, hinner⟩
    · exact ih hrest hx

theorem relisted (h : IsListing entries) : Relisted entries entries := by
  induction h with
  | nil => exact .nil
  | file _ _ _ ih => exact .file ih
  | directory _ _ _ _ ih ih' => exact .directory ih ih'

theorem alike (h : IsListing entries) : Entry.Alike (.directory entries) (.directory entries) :=
  .directory h h.relisted

theorem alike_of_lookup {e : Entry} (h : IsListing entries) (he : entries.lookup name = some e) :
    e.Alike e := by
  induction h with
  | nil => cases he
  | file _ _ _ ih =>
    rw [List.lookup_cons] at he
    split at he
    · cases he
      exact .file
    · exact ih he
  | directory _ _ hinner _ _ ih =>
    rw [List.lookup_cons] at he
    split at he
    · cases he
      exact hinner.alike
    · exact ih he

end IsListing

namespace Relisted

theorem names_perm (h : Relisted entries entries') :
    (entries.map Prod.fst).Perm (entries'.map Prod.fst) := by
  induction h with
  | nil => exact .nil
  | file _ ih | directory _ _ _ ih => exact ih.cons _
  | swap => exact .swap _ _ _
  | trans _ _ ih ih' => exact ih.trans ih'

theorem isListing (h : Relisted entries entries') (hentries : IsListing entries) :
    IsListing entries' := by
  induction h with
  | nil => exact .nil
  | file hrest ih =>
    obtain ⟨hname, hapart, -, hlisting⟩ := IsListing.cons_iff.mp hentries
    exact .file hname (mt hrest.names_perm.mem_iff.mpr hapart) (ih hlisting)
  | directory _ hrest ih ih' =>
    obtain ⟨hname, hapart, hinner, hlisting⟩ := IsListing.cons_iff.mp hentries
    exact .directory hname (mt hrest.names_perm.mem_iff.mpr hapart) (ih (hinner _ rfl)) (ih' hlisting)
  | swap =>
    obtain ⟨hx, hxapart, hxinner, hrest⟩ := IsListing.cons_iff.mp hentries
    obtain ⟨hy, hyapart, hyinner, hlisting⟩ := IsListing.cons_iff.mp hrest
    rw [List.map_cons, List.mem_cons, not_or] at hxapart
    refine IsListing.cons_iff.mpr ⟨hy, ?_, hyinner, IsListing.cons_iff.mpr
      ⟨hx, hxapart.2, hxinner, hlisting⟩⟩
    rw [List.map_cons, List.mem_cons, not_or]
    exact ⟨Ne.symm hxapart.1, hyapart⟩
  | trans _ _ ih ih' => exact ih' (ih hentries)

/-- A name leads to nothing in both listings, or to what is alike. -/
theorem lookup_cases (h : Relisted entries entries') (hentries : IsListing entries) (name : String) :
    (entries.lookup name = none ∧ entries'.lookup name = none) ∨
      ∃ e e', entries.lookup name = some e ∧ entries'.lookup name = some e' ∧ e.Alike e' := by
  induction h with
  | nil => exact .inl ⟨rfl, rfl⟩
  | @file other content _ _ _ ih =>
    obtain ⟨-, -, -, hlisting⟩ := IsListing.cons_iff.mp hentries
    by_cases heq : name = other
    · subst heq
      exact .inr ⟨_, _, List.lookup_cons_self, List.lookup_cons_self, .file⟩
    · simpa [List.lookup_cons, beq_false_of_ne heq] using ih hlisting
  | @directory other _ _ _ _ hinner _ _ ih =>
    obtain ⟨-, -, hlisting, hrest⟩ := IsListing.cons_iff.mp hentries
    by_cases heq : name = other
    · subst heq
      exact .inr ⟨_, _, List.lookup_cons_self, List.lookup_cons_self, .directory (hlisting _ rfl) hinner⟩
    · simpa [List.lookup_cons, beq_false_of_ne heq] using ih hrest
  | @swap x y entries =>
    have hsame : (y :: x :: entries).lookup name = (x :: y :: entries).lookup name := by
      have hne : x.1 ≠ y.1 := by
        have hapart := (IsListing.cons_iff.mp hentries).2.1
        rw [List.map_cons, List.mem_cons, not_or] at hapart
        exact hapart.1
      obtain ⟨a, e⟩ := x
      obtain ⟨b, f⟩ := y
      simp only [List.lookup_cons]
      grind
    rw [hsame]
    cases hlookup : (x :: y :: entries).lookup name with
    | none => exact .inl ⟨rfl, rfl⟩
    | some e =>
      exact .inr ⟨e, e, rfl, rfl, hentries.alike_of_lookup hlookup⟩
  | trans hfirst _ ih ih' =>
    have hmiddle := hfirst.isListing hentries
    rcases ih hentries with ⟨hnone, hnone'⟩ | ⟨e, e', he, he', halike⟩
    · rcases ih' hmiddle with ⟨-, hnone''⟩ | ⟨e, -, he, -⟩
      · exact .inl ⟨hnone, hnone''⟩
      · cases hnone'.symm.trans he
    · rcases ih' hmiddle with ⟨hnone, -⟩ | ⟨f, f', hf, hf', halike'⟩
      · cases he'.symm.trans hnone
      · cases he'.symm.trans hf
        exact .inr ⟨e, f', he, hf', halike.trans halike'⟩

end Relisted

namespace Entry

variable {tree tree' here here' : Entry} {above above' : List Entry}

/-- Walks in trees that are alike fail alike, or come to what is alike. -/
theorem Alike.walk_cases (h : here.Alike here') (habove : List.Forall₂ Alike above above')
    (names : List String) :
    (∃ fault, walk above here names = .error fault ∧ walk above' here' names = .error fault) ∨
      ∃ e e', walk above here names = .ok e ∧ walk above' here' names = .ok e' ∧ e.Alike e' := by
  induction names generalizing above here above' here' with
  | nil => exact .inr ⟨here, here', rfl, rfl, h⟩
  | cons name names ih =>
    cases h with
    | file => exact .inl ⟨.notDirectory, rfl, rfl⟩
    | @directory entries entries' hentries hrelisted =>
      have hhere := Alike.directory hentries hrelisted
      by_cases hstay : name = "" ∨ name = "."
      · rw [walk_stay hstay, walk_stay hstay]
        exact ih hhere habove
      by_cases hup : name = ".."
      · subst hup
        cases habove with
        | nil =>
          rw [walk_top, walk_top]
          exact ih hhere .nil
        | cons houter habove =>
          rw [walk_up, walk_up]
          exact ih houter habove
      rw [walk_name hstay hup, walk_name hstay hup]
      rcases hrelisted.lookup_cases hentries name with ⟨hnone, hnone'⟩ | ⟨e, e', he, he', halike⟩
      · rw [hnone, hnone']
        exact .inl ⟨.notFound, rfl, rfl⟩
      · rw [he, he']
        exact ih halike (.cons hhere habove)

theorem Alike.resolve_cases (h : tree.Alike tree') (path : String) :
    (∃ fault, tree.resolve path = .error fault ∧ tree'.resolve path = .error fault) ∨
      ∃ e e', tree.resolve path = .ok e ∧ tree'.resolve path = .ok e' ∧ e.Alike e' := by
  unfold resolve
  split
  · exact .inl ⟨.notFound, rfl, rfl⟩
  · exact h.walk_cases .nil (components path)

end Entry

end FirSyntax.Project
