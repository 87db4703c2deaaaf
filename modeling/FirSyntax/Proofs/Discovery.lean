import FirSyntax.Proofs.Project.Sources

/-!
# Discovery is complete

A path to a directory names all sources below it, each once and in the order of their components,
however directories list their entries. A path to anything else names itself.
-/
namespace FirSyntax.Project

variable {tree : Entry} {path : String} {entries : List (String × Entry)}

/-- A directory that a path leads to is listed as one is. -/
theorem IsListing.of_resolve {root : List (String × Entry)} (h : IsListing root)
    (hresolve : Entry.resolve (.directory root) path = .ok (.directory entries)) : IsListing entries := by
  obtain ⟨fault, hfault, -⟩ | ⟨e, e', he, -, halike⟩ := h.alike.resolve_cases path
  · cases hresolve.symm.trans hfault
  · cases hresolve.symm.trans he
    cases halike with
    | directory hentries _ => exact hentries

/-- The sources below a directory that has some. -/
theorem exists_discovered (hentries : IsListing entries)
    (hresolve : tree.resolve path = .ok (.directory entries)) (hsome : ∃ parts, SourceAt entries parts) :
    ∃ places : List (List String), discover tree path = .ok (places.map (join path)) ∧
      (∀ parts, parts ∈ places ↔ SourceAt entries parts) ∧
      ((places.map (join path)).map components).Pairwise (· < ·) := by
  obtain ⟨source, hsource⟩ := hsome
  have hmem (parts : List String) :
      parts ∈ (sourcesIn entries).mergeSort precedes ↔ SourceAt entries parts :=
    (List.mergeSort_perm _ _).mem_iff.trans mem_sourcesIn_iff
  refine ⟨(sourcesIn entries).mergeSort precedes, ?_, hmem, ?_⟩
  · rw [discover_directory hresolve, if_neg (List.ne_nil_of_mem hsource.mem)]
  · refine components_join_lt path (fun parts hparts => ?_) (strictly_sorted hentries.nodup_sources)
    have hat := (hmem parts).mp hparts
    exact ⟨hat.ne_nil, hat.proper hentries⟩

/-- A directory without sources is refused, and no other is. -/
theorem discover_noSources_iff (hresolve : tree.resolve path = .ok (.directory entries)) :
    discover tree path = .error (.noSources path) ↔ ¬ ∃ parts, SourceAt entries parts := by
  have hempty : sourcesIn entries = [] ↔ ¬ ∃ parts, SourceAt entries parts := by
    simp only [List.eq_nil_iff_forall_not_mem, mem_sourcesIn_iff, not_exists]
  rw [discover_directory hresolve, ← hempty]
  split_ifs with h <;> simp [h]

/-- In trees that differ in the order of listings alone the same is found. -/
theorem discover_alike {tree' : Entry} (h : tree.Alike tree') (path : String) :
    discover tree' path = discover tree path := by
  obtain ⟨fault, hfault, hfault'⟩ | ⟨e, e', he, he', halike⟩ := h.resolve_cases path
  · rw [discover, discover, hfault, hfault']
  · cases halike with
    | file => rw [discover, discover, he, he']
    | directory _ hrelisted =>
      have hperm := hrelisted.sourcesIn_perm
      rw [discover, discover, he, he']
      dsimp only
      rw [mergeSort_eq_of_perm hperm]

/-- Where a path leads to a directory, the files found are those below it whose names end in the
extension of sources and are more than that. Each is given once, by the path that leads there, in strict
order of the components of these paths; there is an error just when there is no such file. What is found
is the same for every order in which directories list their entries. Any other path is given back,
whatever stands there. -/
theorem discover_complete (path : String) {root : List (String × Entry)} (h : IsListing root) :
    (∀ entries, Entry.resolve (.directory root) path = .ok (.directory entries) →
      (discover (.directory root) path = .error (.noSources path) ↔
          ¬ ∃ parts, SourceAt entries parts) ∧
        ((∃ parts, SourceAt entries parts) →
          ∃ places : List (List String),
            discover (.directory root) path = .ok (places.map (join path)) ∧
              (∀ parts, parts ∈ places ↔ SourceAt entries parts) ∧
              ((places.map (join path)).map components).Pairwise (· < ·))) ∧
      (∀ root', Relisted root root' →
        discover (.directory root') path = discover (.directory root) path) ∧
      ((∀ entries, Entry.resolve (.directory root) path ≠ .ok (.directory entries)) →
        discover (.directory root) path = .ok [path]) := by
  refine ⟨fun entries hresolve => ⟨discover_noSources_iff hresolve, ?_⟩, fun root' hrelisted => ?_,
    discover_other⟩
  · exact exists_discovered (h.of_resolve hresolve) hresolve
  · exact discover_alike (.directory h hrelisted) path

/-- Files found in the order of their components, in a directory that is listed in two ways: `a` comes
before `a-b`, and both before `a.fir`. -/
theorem discover_complete_nested :
    let inner := [("a.fir", Entry.file (.ok [])), ("a-b", .directory [("y.fir", .file (.ok []))]),
      ("a", .directory [("z.fir", .file (.ok [])), (".fir", .file (.ok []))])]
    let inner' := [("a-b", Entry.directory [("y.fir", .file (.ok []))]), ("a.fir", .file (.ok [])),
      ("a", .directory [(".fir", .file (.ok [])), ("z.fir", .file (.ok []))])]
    IsListing [("p", .directory inner)] ∧
      Relisted [("p", .directory inner)] [("p", .directory inner')] ∧
      discover (.directory [("p", .directory inner)]) "p" =
        .ok ["p/a/z.fir", "p/a-b/y.fir", "p/a.fir"] ∧
      discover (.directory [("p", .directory inner')]) "p" =
        discover (.directory [("p", .directory inner)]) "p" ∧
      discover (.directory [("p", .directory inner)]) "q" = .ok ["q"] := by
  intro inner inner'
  have hlisting : IsListing [("p", .directory inner)] := by
    have hb : IsListing [("y.fir", .file (.ok []))] := .file (by decide) (by decide) .nil
    have ha : IsListing [("z.fir", .file (.ok [])), (".fir", .file (.ok []))] :=
      .file (by decide) (by decide) (.file (by decide) (by decide) .nil)
    refine .directory (by decide) (by decide) ?_ .nil
    refine .file (by decide) (by decide) (.directory (by decide) (by decide) hb ?_)
    exact .directory (by decide) (by decide) ha .nil
  have hrelisted : Relisted [("p", .directory inner)] [("p", .directory inner')] := by
    refine .directory (.trans .swap ?_) .nil
    exact .directory (.file .nil) (.file (.directory .swap .nil))
  have hfound : (sourcesIn inner).mergeSort precedes =
      [["a", "z.fir"], ["a-b", "y.fir"], ["a.fir"]] := by
    have hperm : (sourcesIn inner).Perm [["a", "z.fir"], ["a-b", "y.fir"], ["a.fir"]] := by decide
    rw [mergeSort_eq_of_perm hperm]
    exact List.mergeSort_of_pairwise (by decide +kernel)
  obtain ⟨-, hsame, hother⟩ := discover_complete "p" hlisting
  refine ⟨hlisting, hrelisted, ?_, hsame _ hrelisted, ?_⟩
  · have hresolve : Entry.resolve (.directory [("p", .directory inner)]) "p" =
        .ok (.directory inner) := rfl
    rw [discover, hresolve]
    dsimp only
    rw [hfound]
    decide
  · refine (discover_complete "q" hlisting).2.2 fun entries hresolve => ?_
    cases hresolve

end FirSyntax.Project
