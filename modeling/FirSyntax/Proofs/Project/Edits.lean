import FirSyntax.Proofs.Project.Walks

/-!
# Edits of one file

A tree is edited when one of its files is changed or removed. A walk in the edited tree
runs abreast of the one in the tree as it was, until it comes to that file. So what is read at a
path stays the same, and a source is still found, unless the path leads to the file.
-/
namespace FirSyntax.Project

/-- The second listing of a directory is the first but for the file at a place below it, which is
changed or removed. The names on the way find the file, and when it is removed no second entry
of its name comes to light. -/
inductive Edits : List String → List (String × Entry) → List (String × Entry) → Prop where
  | changed {name content content' entries} : IsProper name →
      Edits [name] ((name, .file content) :: entries) ((name, .file content') :: entries)
  | removed {name content entries} : IsProper name → entries.lookup name = none →
      Edits [name] ((name, .file content) :: entries) entries
  | within {name place inner inner' entries} : IsProper name → Edits place inner inner' →
      Edits (name :: place) ((name, .directory inner) :: entries)
        ((name, .directory inner') :: entries)
  | further {name place x entries entries'} : x.1 ≠ name → Edits (name :: place) entries entries' →
      Edits (name :: place) (x :: entries) (x :: entries')

namespace Entry

/-- A directory whose listing is edited. -/
inductive Edited (place : List String) : Entry → Entry → Prop where
  | directory {entries entries'} : Edits place entries entries' →
      Edited place (directory entries) (directory entries')

/-- Some beginning of a path leads to the file at a place. -/
def Meets (tree : Entry) (place : List String) (path : String) : Prop :=
  ∃ front content, front <+: components path ∧ canonical front = place ∧
    walk [] tree front = .ok (file content)

/-- The file at a place is another one than that at a path: the path leads elsewhere, or nothing can
be read there and the path does not come by the file either. -/
def IsOther (tree : Entry) (place : List String) (path : String) : Prop :=
  match tree.read path with
  | .ok _ => canonical (components path) ≠ place
  | .error _ => ¬ tree.Meets place path

end Entry

variable {place : List String} {entries entries' : List (String × Entry)} {name : String}

namespace Edits

theorem proper (h : Edits place entries entries') : ∀ name ∈ place, IsProper name := by
  induction h with
  | changed hname | removed hname => simpa using hname
  | within hname _ ih => exact List.forall_mem_cons.mpr ⟨hname, ih⟩
  | further _ _ ih => exact ih

theorem place_ne_nil (h : Edits place entries entries') : place ≠ [] := by
  cases h <;> simp

/-- Entries of other names are not touched. -/
theorem lookup_of_ne (h : Edits (name :: place) entries entries') {other : String}
    (hne : other ≠ name) : entries'.lookup other = entries.lookup other := by
  generalize hplace : name :: place = way at h
  induction h with
  | changed | removed | within =>
    cases hplace
    simp [List.lookup_cons, beq_false_of_ne hne]
  | further _ _ ih => rw [List.lookup_cons, List.lookup_cons, ih hplace]

/-- The name on the way leads to the file itself or to a directory that is edited. -/
theorem lookup_cases (h : Edits (name :: place) entries entries') :
    (place = [] ∧ ∃ content, entries.lookup name = some (.file content)) ∨
      ∃ inner inner', entries.lookup name = some (.directory inner) ∧
        entries'.lookup name = some (.directory inner') ∧ Edits place inner inner' := by
  generalize hplace : name :: place = way at h
  induction h with
  | @changed _ content | @removed _ content =>
    cases hplace
    exact .inl ⟨rfl, content, by simp⟩
  | @within _ _ inner inner' _ _ hinner =>
    cases hplace
    exact .inr ⟨inner, inner', by simp, by simp, hinner⟩
  | @further _ _ x _ _ hx _ ih =>
    cases hplace
    obtain ⟨other, entry⟩ := x
    simpa [List.lookup_cons, beq_false_of_ne (Ne.symm hx)] using ih rfl

/-- The names on the way lead to the file. -/
theorem walk_place (h : Edits place entries entries') :
    ∃ content, ∀ above, Entry.walk above (.directory entries) place = .ok (.file content) := by
  induction place generalizing entries entries' with
  | nil => exact absurd rfl h.place_ne_nil
  | cons name place ih =>
    have hname := h.proper name List.mem_cons_self
    have hstep (above : List Entry) (rest : List String) :
        Entry.walk above (.directory entries) (name :: rest) = _ :=
      Entry.walk_name (not_or.mpr ⟨hname.ne_empty, hname.ne_here⟩) hname.ne_above rest
    rcases h.lookup_cases with ⟨rfl, content, hfile⟩ | ⟨inner, inner', hinner, -, hedits⟩
    · refine ⟨content, fun above => ?_⟩
      rw [hstep, hfile]
      rfl
    · obtain ⟨content, hwalk⟩ := ih hedits
      refine ⟨content, fun above => ?_⟩
      rw [hstep, hinner]
      exact hwalk _

/-- Every other source is still found. -/
theorem mem_sourcesIn (h : Edits place entries entries') {parts : List String}
    (hparts : parts ∈ sourcesIn entries) (hne : parts ≠ place) : parts ∈ sourcesIn entries' := by
  induction h generalizing parts with
  | changed => exact hparts
  | @removed name _ _ _ _ =>
    rw [sourcesIn, List.mem_append, sourcesAt] at hparts
    refine hparts.resolve_left fun hname => hne ?_
    split at hname
    · exact List.mem_singleton.mp hname
    · cases hname
  | within _ _ ih =>
    rw [sourcesIn, List.mem_append, sourcesAt] at hparts ⊢
    refine hparts.imp_left fun hinner => ?_
    obtain ⟨parts, hmem, rfl⟩ := List.mem_map.mp hinner
    exact List.mem_map.mpr ⟨parts, ih hmem fun heq => hne (congrArg _ heq), rfl⟩
  | further _ _ ih =>
    rw [sourcesIn, List.mem_append] at hparts ⊢
    exact hparts.imp_right fun hmem => ih hmem hne

end Edits

namespace Entry

variable {above above' : List Entry} {tree tree' here here' : Entry} {path : String}
  {way : List String}

/-- What stands at a place on one way of both trees: the same, or a directory on the way to the
file, which is edited. -/
inductive Matches (place way : List String) : Entry → Entry → Prop where
  | same {e} : Matches place way e e
  | edited {rest e e'} : place = way.reverse ++ rest → Edited rest e e' → Matches place way e e'

/-- A directory matches a directory only. -/
theorem Matches.exists_directory (h : Matches place way (directory entries) here') :
    ∃ entries', here' = directory entries' := by
  cases h with
  | same => exact ⟨entries, rfl⟩
  | edited _ hedited =>
    cases hedited
    exact ⟨_, rfl⟩

/-- Walks that have come the same way in both trees, with the directories around them. -/
inductive Abreast (place : List String) : List String → List Entry → List Entry → Prop where
  | top {e e'} : Matches place [] e e' → Abreast place [] [e] [e']
  | name {name way e e' above above'} : Matches place (name :: way) e e' →
      Abreast place way above above' → Abreast place (name :: way) (e :: above) (e' :: above')

theorem Abreast.matches (h : Abreast place way (here :: above) (here' :: above')) :
    Matches place way here here' := by
  cases h <;> assumption

/-- Two walks along the same names fail alike, come to what matches, or come by the file. -/
inductive Agree (place way : List String) (walk walk' : List String → Except ReadFault Entry)
    (names : List String) : Prop where
  | failed {fault} : walk names = .error fault → walk' names = .error fault →
      Agree place way walk walk' names
  | arrived {e e'} : walk names = .ok e → walk' names = .ok e' →
      Matches place (names.foldl follow way) e e' → Agree place way walk walk' names
  | met {front content} : front <+: names → (front.foldl follow way).reverse = place →
      walk front = .ok (.file content) → Agree place way walk walk' names

/-- The walks agree when they do so after one step that both take. -/
theorem Agree.step {rest : List String}
    {walk walk' next next' : List String → Except ReadFault Entry}
    (hwalk : ∀ rest, walk (name :: rest) = next rest)
    (hwalk' : ∀ rest, walk' (name :: rest) = next' rest)
    (h : Agree place (follow way name) next next' rest) :
    Agree place way walk walk' (name :: rest) := by
  cases h with
  | failed hfault hfault' => exact .failed ((hwalk _).trans hfault) ((hwalk' _).trans hfault')
  | arrived he he' hmatches => exact .arrived ((hwalk _).trans he) ((hwalk' _).trans he') hmatches
  | met hfront hplace hfile =>
    exact .met (List.cons_prefix_cons.mpr ⟨rfl, hfront⟩) hplace ((hwalk _).trans hfile)

/-- What a name leads to in directories that match, unless it is the file that is edited. -/
theorem Matches.lookup_cases (h : Matches place way (directory entries) (directory entries'))
    (name : String) :
    (entries.lookup name = none ∧ entries'.lookup name = none) ∨
      (∃ e e', entries.lookup name = some e ∧ entries'.lookup name = some e' ∧
        Matches place (name :: way) e e') ∨
      (place = way.reverse ++ [name] ∧ ∃ content, entries.lookup name = some (file content)) := by
  have hsame (hlookup : entries'.lookup name = entries.lookup name) :
      (entries.lookup name = none ∧ entries'.lookup name = none) ∨
        ∃ e e', entries.lookup name = some e ∧ entries'.lookup name = some e' ∧
          Matches place (name :: way) e e' := by
    rw [hlookup]
    cases entries.lookup name with
    | none => exact .inl ⟨rfl, rfl⟩
    | some e => exact .inr ⟨e, e, rfl, rfl, .same⟩
  cases h with
  | same => exact or_assoc.mp (.inl (hsame rfl))
  | @edited rest _ _ hplace hedited =>
    obtain ⟨hedits⟩ := hedited
    cases rest with
    | nil => exact absurd rfl hedits.place_ne_nil
    | cons next rest =>
      by_cases hne : name = next
      · subst hne
        rcases hedits.lookup_cases with ⟨rfl, hfile⟩ | ⟨inner, inner', he, he', hinner⟩
        · exact .inr (.inr ⟨hplace, hfile⟩)
        · refine .inr (.inl ⟨_, _, he, he', .edited ?_ (.directory hinner)⟩)
          rw [hplace, List.reverse_cons, List.append_assoc, List.singleton_append]
      · exact or_assoc.mp (.inl (hsame (hedits.lookup_of_ne hne)))

theorem agree_of_abreast (h : Abreast place way (here :: above) (here' :: above'))
    (names : List String) : Agree place way (walk above here) (walk above' here') names := by
  -- One name is followed at a time: the two walks stay abreast, or the name is that of the file.
  induction names generalizing way above here above' here' with
  | nil => exact .arrived rfl rfl h.matches
  | cons name names ih =>
    cases here with
    | file =>
      cases h.matches with
      | same => exact .failed rfl rfl
      | edited _ hedited => cases hedited
    | directory entries =>
      obtain ⟨entries', rfl⟩ := h.matches.exists_directory
      by_cases hstay : name = "" ∨ name = "."
      · refine .step (walk_stay hstay) (walk_stay hstay) ?_
        rw [follow, if_pos hstay]
        exact ih h
      by_cases hup : name = ".."
      · subst hup
        cases h with
        | top hmatches => exact .step walk_top walk_top (ih (.top hmatches))
        | name _ habove =>
          cases habove with
          | top hmatches => exact .step (walk_up _) (walk_up _) (ih (.top hmatches))
          | name hmatches habove => exact .step (walk_up _) (walk_up _) (ih (.name hmatches habove))
      have hfollow : follow way name = name :: way := by rw [follow, if_neg hstay, if_neg hup]
      rcases h.matches.lookup_cases name with
        ⟨hnone, hnone'⟩ | ⟨e, e', he, he', hmatches⟩ | ⟨hplace, content, hfile⟩
      · have hwalk : walk above (directory entries) (name :: names) = .error .notFound := by
          rw [walk_name hstay hup, hnone]
        refine .failed hwalk ?_
        rw [walk_name hstay hup, hnone']
      · refine .step (fun rest => ?_) (fun rest => ?_) (hfollow ▸ ih (.name hmatches h))
        · rw [walk_name hstay hup, he]
        · rw [walk_name hstay hup, he']
      · have hwalk : walk above (directory entries) [name] = .ok (file content) := by
          rw [walk_name hstay hup, hfile]
          rfl
        refine .met (List.cons_prefix_cons.mpr ⟨rfl, List.nil_prefix⟩) ?_ hwalk
        rw [List.foldl_cons, hfollow, List.foldl_nil, List.reverse_cons, hplace]

/-! ## What is read and found -/

theorem walk_of_resolve {e : Entry} (h : tree.resolve path = .ok e) :
    walk [] tree (components path) = .ok e := by
  unfold resolve at h
  split at h
  · cases h
  · exact h

/-- A path that leads somewhere meets the file only when it leads there. -/
theorem Meets.eq_of_resolve {e : Entry} (h : tree.Meets place path)
    (he : tree.resolve path = .ok e) :
    canonical (components path) = place ∧ ∃ content, e = file content := by
  obtain ⟨front, content, hfront, hplace, hfile⟩ := h
  have hwalk := walk_of_resolve he
  obtain rfl | herror := walk_beyond_file hfile hfront
  · cases hwalk.symm.trans hfile
    exact ⟨hplace, content, rfl⟩
  · cases hwalk.symm.trans herror

theorem resolve_of_read {content : List UInt8} (h : tree.read path = .ok content) :
    tree.resolve path = .ok (file (.ok content)) := by
  unfold read at h
  split at h
  · next hresolve => exact h ▸ hresolve
  · cases h
  · cases h

/-- A path at which a file is read does not come by any other file. -/
theorem IsOther.not_meets (h : tree.IsOther place path) : ¬ tree.Meets place path := by
  unfold IsOther at h
  split at h
  · next hread => exact fun hmeets => h (hmeets.eq_of_resolve (resolve_of_read hread)).1
  · exact h

/-- A path that does not meet the file leads to what matches, or nowhere in both trees. -/
theorem Edited.resolve_cases (h : Edited place tree tree') (hmeets : ¬ tree.Meets place path) :
    (∃ fault, tree.resolve path = .error fault ∧ tree'.resolve path = .error fault) ∨
      ∃ e e', tree.resolve path = .ok e ∧ tree'.resolve path = .ok e' ∧
        Matches place (canonical (components path)).reverse e e' := by
  by_cases hempty : path = ""
  · rw [resolve, resolve, if_pos hempty, if_pos hempty]
    exact .inl ⟨.notFound, rfl, rfl⟩
  · rw [resolve, resolve, if_neg hempty, if_neg hempty, canonical_eq, List.reverse_reverse]
    cases agree_of_abreast (.top (.edited rfl h)) (components path) with
    | failed hfault hfault' => exact .inl ⟨_, hfault, hfault'⟩
    | arrived he he' hmatches => exact .inr ⟨_, _, he, he', hmatches⟩
    | met hfront hplace hfile => exact absurd ⟨_, _, hfront, hplace, hfile⟩ hmeets

/-- What is read at a path that does not meet the file is the same as before. -/
theorem Edited.read_eq (h : Edited place tree tree') (hmeets : ¬ tree.Meets place path) :
    tree'.read path = tree.read path := by
  rw [read, read]
  obtain ⟨fault, hfault, hfault'⟩ | ⟨e, e', he, he', hmatches⟩ := h.resolve_cases hmeets
  · rw [hfault, hfault']
  · rw [he, he']
    cases hmatches with
    | same => rfl
    | edited _ hedited =>
      cases hedited
      rfl

/-- Where the names below a directory lead, they lead from the root of the path that is put
together from both. -/
theorem walk_join {parts : List String} {content : Except ReadFault (List UInt8)}
    (hresolve : tree.resolve path = .ok (directory entries)) (hne : parts ≠ [])
    (hparts : ∀ name ∈ parts, IsProper name)
    (hwalk : ∀ above, walk above (directory entries) parts = .ok (file content)) :
    canonical (components (join path parts)) = canonical (components path) ++ parts ∧
      walk [] tree (components (join path parts)) = .ok (file content) := by
  obtain ⟨front, hfront, hjoin⟩ := components_join path
  have hroot := walk_of_resolve hresolve
  have hcanonical : canonical (components path) = canonical front := by
    rcases hfront with heq | heq
    · rw [heq]
    · rw [heq, canonical_eq, List.foldl_append]
      rfl
  have hcome : walk [] tree front = .ok (directory entries) := by
    rcases hfront with heq | heq
    · rwa [heq] at hroot
    · rw [heq] at hroot
      exact walk_of_walk_empty hroot
  obtain ⟨above, hon⟩ := walk_append_of_ok hcome
  rw [hjoin parts hne fun name hname => (hparts name hname).no_slash, canonical_append hparts,
    hcanonical, hon]
  exact ⟨rfl, hwalk above⟩

/-- A source that a path names is still named when another file is edited. -/
theorem Edited.mem_discover {files : List String} {source : String}
    (h : Edited place tree tree') (hfiles : discover tree path = .ok files)
    (hsource : source ∈ files) (hmeets : ¬ tree.Meets place source) :
    ∃ files', discover tree' path = .ok files' ∧ source ∈ files' := by
  by_cases hdirectory : ∃ entries, tree.resolve path = .ok (.directory entries)
  · obtain ⟨entries, hresolve⟩ := hdirectory
    obtain ⟨parts, hparts, rfl⟩ := mem_of_discover hresolve hfiles hsource
    have hroot : ¬ tree.Meets place path := fun hmeets => by
      obtain ⟨-, content, hfile⟩ := hmeets.eq_of_resolve hresolve
      cases hfile
    obtain ⟨fault, hfault, -⟩ | ⟨e, e', he, he', hmatches⟩ := h.resolve_cases hroot
    · cases hresolve.symm.trans hfault
    · cases hresolve.symm.trans he
      cases hmatches with
      | same => exact exists_discover he' hparts
      | @edited rest _ _ hplace hedited =>
        obtain ⟨hedits⟩ := hedited
        refine exists_discover he' (hedits.mem_sourcesIn hparts fun heq => hmeets ?_)
        obtain ⟨content, hwalk⟩ := hedits.walk_place
        obtain ⟨hcanonical, hcome⟩ := walk_join hresolve hedits.place_ne_nil hedits.proper hwalk
        rw [List.reverse_reverse] at hplace
        rw [heq]
        exact ⟨_, content, List.prefix_refl _, hcanonical.trans hplace.symm, hcome⟩
  · rw [discover_other (not_exists.mp hdirectory)] at hfiles
    cases hfiles
    cases List.mem_singleton.mp hsource
    refine ⟨[path], discover_other fun entries hresolve => ?_, List.mem_singleton_self path⟩
    obtain ⟨fault, -, hfault'⟩ | ⟨e, e', he, he', hmatches⟩ := h.resolve_cases hmeets
    · cases hresolve.symm.trans hfault'
    · cases hresolve.symm.trans he'
      cases hmatches with
      | same => exact hdirectory ⟨_, he⟩
      | edited _ hedited =>
        cases hedited
        exact hdirectory ⟨_, he⟩

end Entry

end FirSyntax.Project
