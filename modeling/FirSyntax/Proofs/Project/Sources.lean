import FirSyntax.Proofs.Project.Listings
import Mathlib.Data.List.Sort
import Mathlib.Data.List.TakeDrop
import Mathlib.Data.List.TakeWhile
import Mathlib.Data.String.Basic

/-!
# Sources below a directory

Which files are sources, and where they stand. Each is found once, whatever the order of listings,
and the order in which sources are given is that of their components.
-/
namespace FirSyntax.Project

/-- A source stands at the end of the names below a directory: a file whose name is more than its
extension. On the way there are directories, of any names. -/
inductive SourceAt : List (String × Entry) → List String → Prop where
  | file {entries stem content} : stem ≠ "" → (stem ++ ".fir", .file content) ∈ entries →
      SourceAt entries [stem ++ ".fir"]
  | within {entries name inner parts} : (name, .directory inner) ∈ entries → SourceAt inner parts →
      SourceAt entries (name :: parts)

variable {entries entries' : List (String × Entry)} {parts : List String} {name ext : String}

/-! ## Names of sources -/

theorem takes_of_notMem {cs : List Char} (h : '.' ∉ cs) : ∀ c ∈ cs, (c != '.') = true :=
  fun _ hc => bne_iff_ne.mpr fun heq => h (heq ▸ hc)

theorem span_dot {after : List Char} (h : '.' ∉ after) (before : List Char) :
    (after ++ '.' :: before).span (· != '.') = (after, '.' :: before) := by
  rw [List.span_eq_takeWhile_dropWhile, List.takeWhile_append_of_pos (takes_of_notMem h),
    List.dropWhile_append_of_pos (takes_of_notMem h)]
  simp

/-- An extension stands behind the last dot, and something in front of that dot. -/
theorem extension?_eq_some_iff : extension? name = some ext ↔
    '.' ∉ ext.toList ∧ ∃ stem, stem ≠ "" ∧ name = stem ++ "." ++ ext := by
  constructor
  · intro h
    by_cases hdot : '.' ∈ name.toList.reverse
    · obtain ⟨after, before, hname, hafter⟩ := List.eq_append_cons_of_mem hdot
      rw [extension?, hname, span_dot hafter] at h
      cases before with
      | nil => cases h
      | cons c before =>
        cases h
        refine ⟨by simpa using hafter, String.ofList (c :: before).reverse, by simp, ?_⟩
        rw [← String.toList_inj, ← List.reverse_inj, hname]
        simp
    · have hall := List.dropWhile_eq_nil_iff.2 (takes_of_notMem hdot)
      rw [extension?, List.span_eq_takeWhile_dropWhile, hall] at h
      cases h
  · rintro ⟨hdot, stem, hstem, rfl⟩
    have hreverse : (stem ++ "." ++ ext).toList.reverse =
        ext.toList.reverse ++ '.' :: stem.toList.reverse := by simp
    have hne : stem.toList.reverse ≠ [] := by simpa using hstem
    obtain ⟨c, cs, hcons⟩ := List.exists_cons_of_ne_nil hne
    rw [extension?, hreverse, span_dot (by simpa using hdot), hcons]
    simp

theorem isSourceName_iff : isSourceName name = true ↔ ∃ stem, stem ≠ "" ∧ name = stem ++ ".fir" := by
  rw [isSourceName, beq_iff_eq, extension?_eq_some_iff]
  simp [String.append_assoc]

/-! ## Where sources stand -/

theorem mem_sourcesAt_file {content : Except ReadFault (List UInt8)} :
    parts ∈ sourcesAt name (.file content) ↔
      ∃ stem, stem ≠ "" ∧ name = stem ++ ".fir" ∧ parts = [name] := by
  rw [sourcesAt]
  split
  · next hname =>
    obtain ⟨stem, hstem, heq⟩ := isSourceName_iff.mp hname
    exact ⟨fun h => ⟨stem, hstem, heq, List.mem_singleton.mp h⟩,
      fun ⟨_, _, _, h⟩ => List.mem_singleton.mpr h⟩
  · next hname =>
    refine ⟨fun h => absurd h List.not_mem_nil, fun ⟨stem, hstem, heq, _⟩ => absurd ?_ hname⟩
    exact isSourceName_iff.mpr ⟨stem, hstem, heq⟩

theorem mem_sourcesIn {x : String × Entry} (hx : x ∈ entries) (h : parts ∈ sourcesAt x.1 x.2) :
    parts ∈ sourcesIn entries := by
  induction entries with
  | nil => cases hx
  | cons y entries ih =>
    rw [sourcesIn, List.mem_append]
    rcases List.mem_cons.mp hx with rfl | hx
    · exact .inl h
    · exact .inr (ih hx)

theorem SourceAt.mem (h : SourceAt entries parts) : parts ∈ sourcesIn entries := by
  induction h with
  | @file entries stem content hstem hmem =>
    exact mem_sourcesIn hmem (mem_sourcesAt_file.mpr ⟨stem, hstem, rfl, rfl⟩)
  | within hmem _ ih =>
    refine mem_sourcesIn hmem ?_
    rw [sourcesAt]
    exact List.mem_map_of_mem ih

theorem SourceAt.mono (h : SourceAt entries parts) (hsub : entries ⊆ entries') :
    SourceAt entries' parts := by
  cases h with
  | file hstem hmem => exact .file hstem (hsub hmem)
  | within hmem hinner => exact .within (hsub hmem) hinner

theorem sourceAt_of_mem : ∀ {entries : List (String × Entry)} {parts : List String},
    parts ∈ sourcesIn entries → SourceAt entries parts
  | [], _, h => by cases h
  | (_, .file _) :: _, _, h => by
    rw [sourcesIn, List.mem_append] at h
    rcases h with h | h
    · obtain ⟨stem, hstem, rfl, rfl⟩ := mem_sourcesAt_file.mp h
      exact .file hstem List.mem_cons_self
    · exact (sourceAt_of_mem h).mono (List.subset_cons_self _ _)
  | (_, .directory _) :: _, _, h => by
    rw [sourcesIn, List.mem_append, sourcesAt] at h
    rcases h with h | h
    · obtain ⟨parts, hparts, rfl⟩ := List.mem_map.mp h
      exact .within List.mem_cons_self (sourceAt_of_mem hparts)
    · exact (sourceAt_of_mem h).mono (List.subset_cons_self _ _)

/-- What is found are the sources. -/
theorem mem_sourcesIn_iff : parts ∈ sourcesIn entries ↔ SourceAt entries parts :=
  ⟨sourceAt_of_mem, SourceAt.mem⟩

/-! ## Once each, in any listing -/

theorem SourceAt.exists_cons (h : SourceAt entries parts) :
    ∃ name rest, parts = name :: rest ∧ name ∈ entries.map Prod.fst := by
  cases h with
  | file _ hmem | within hmem _ => exact ⟨_, _, rfl, List.mem_map_of_mem hmem⟩

theorem SourceAt.ne_nil (h : SourceAt entries parts) : parts ≠ [] := by
  cases h <;> simp

theorem SourceAt.proper (h : SourceAt entries parts) (hentries : IsListing entries) :
    ∀ name ∈ parts, IsProper name := by
  induction h with
  | file _ hmem => exact List.forall_mem_singleton.mpr (hentries.of_mem hmem).1
  | within hmem _ ih =>
    obtain ⟨hname, hinner⟩ := hentries.of_mem hmem
    exact List.forall_mem_cons.mpr ⟨hname, ih (hinner _ rfl)⟩

theorem Relisted.sourcesIn_perm (h : Relisted entries entries') :
    (sourcesIn entries).Perm (sourcesIn entries') := by
  induction h with
  | nil => exact .nil
  | file _ ih =>
    rw [sourcesIn, sourcesIn]
    exact ih.append_left _
  | directory _ _ ih ih' =>
    rw [sourcesIn, sourcesIn, sourcesAt, sourcesAt]
    exact (ih.map _).append ih'
  | @swap x y entries =>
    simp only [sourcesIn, ← List.append_assoc]
    exact List.perm_append_comm.append_right _
  | trans _ _ ih ih' => exact ih.trans ih'

theorem exists_cons_of_mem_sourcesAt {e : Entry} (h : parts ∈ sourcesAt name e) :
    ∃ rest, parts = name :: rest := by
  cases e with
  | file content =>
    obtain ⟨-, -, -, rfl⟩ := mem_sourcesAt_file.mp h
    exact ⟨[], rfl⟩
  | directory inner =>
    rw [sourcesAt] at h
    obtain ⟨rest, -, rfl⟩ := List.mem_map.mp h
    exact ⟨rest, rfl⟩

/-- Entries of different names have no source in common. -/
theorem nodup_sources_cons {e : Entry} (hname : name ∉ entries.map Prod.fst)
    (he : (sourcesAt name e).Nodup) (hentries : (sourcesIn entries).Nodup) :
    (sourcesIn ((name, e) :: entries)).Nodup := by
  rw [sourcesIn]
  refine List.nodup_append.mpr ⟨he, hentries, fun parts hparts other hother heq => hname ?_⟩
  obtain ⟨rest, rfl⟩ := exists_cons_of_mem_sourcesAt hparts
  obtain ⟨first, _, rfl, hfirst⟩ := (sourceAt_of_mem hother).exists_cons
  exact (List.cons.inj heq).1 ▸ hfirst

theorem IsListing.nodup_sources (h : IsListing entries) : (sourcesIn entries).Nodup := by
  induction h with
  | nil => exact .nil
  | file _ hapart _ ih =>
    refine nodup_sources_cons hapart ?_ ih
    rw [sourcesAt]
    split
    · exact List.nodup_singleton _
    · exact .nil
  | directory _ hapart _ _ ih ih' =>
    refine nodup_sources_cons hapart ?_ ih'
    rw [sourcesAt]
    exact ih.map fun _ _ heq => (List.cons.inj heq).2

/-! ## The order of paths -/

theorem nameBefore_iff {a b : String} : nameBefore a b = true ↔ a < b := by
  rw [nameBefore, List.lex_eq_true_iff_lex, String.lt_iff_toList_lt, ← List.lex_lt]
  simp only [decide_eq_true_eq]
  rfl

/-- Paths are in order as lists of names are. -/
theorem precedes_iff {a b : List String} : precedes a b = true ↔ a ≤ b := by
  rw [precedes, Bool.not_eq_true', ← Bool.not_eq_true, List.lex_eq_true_iff_lex, ← not_lt,
    ← List.lex_lt]
  simp only [nameBefore_iff]

theorem sorted_mergeSort (ps : List (List String)) : (ps.mergeSort precedes).Pairwise (· ≤ ·) := by
  have hsorted := @List.pairwise_mergeSort _ precedes
    (fun a b c hab hbc => precedes_iff.mpr (le_trans (precedes_iff.mp hab) (precedes_iff.mp hbc)))
    (fun a b => by simpa [precedes_iff] using le_total a b) ps
  exact hsorted.imp precedes_iff.mp

/-- Paths that are found in another order are sorted to the same. -/
theorem mergeSort_eq_of_perm {ps qs : List (List String)} (h : ps.Perm qs) :
    ps.mergeSort precedes = qs.mergeSort precedes := by
  have hperm : (ps.mergeSort precedes).Perm (qs.mergeSort precedes) :=
    ((List.mergeSort_perm ps _).trans h).trans (List.mergeSort_perm qs _).symm
  exact hperm.eq_of_pairwise (fun _ _ _ _ => le_antisymm) (sorted_mergeSort ps) (sorted_mergeSort qs)

theorem strictly_sorted {ps : List (List String)} (h : ps.Nodup) :
    (ps.mergeSort precedes).Pairwise (· < ·) := by
  have hnodup := (List.mergeSort_perm ps precedes).nodup_iff.mpr h
  exact ((sorted_mergeSort ps).and hnodup).imp fun h => lt_of_le_of_ne h.1 h.2

/-- Below one root, paths are in the order of the names behind the root. -/
theorem components_join_lt (root : String) {ps : List (List String)}
    (hproper : ∀ parts ∈ ps, parts ≠ [] ∧ ∀ name ∈ parts, IsProper name) (h : ps.Pairwise (· < ·)) :
    ((ps.map (join root)).map components).Pairwise (· < ·) := by
  obtain ⟨front, -, hjoin⟩ := components_join root
  have hcomponents {parts : List String} (hmem : parts ∈ ps) :
      components (join root parts) = front ++ parts :=
    hjoin parts (hproper parts hmem).1 fun name hname => ((hproper parts hmem).2 name hname).no_slash
  rw [List.pairwise_map, List.pairwise_map]
  refine h.imp_of_mem fun ha hb hab => ?_
  rw [hcomponents ha, hcomponents hb]
  exact List.append_left_lt hab

end FirSyntax.Project
