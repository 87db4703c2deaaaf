import FirSyntax.Project.Discovery

/-!
# Paths and walks

What a path is made of when it is put together from names, and where the walk along it comes to. A
walk that comes to an entry goes on from there; a walk that fails, fails for good.
-/
namespace FirSyntax.Project

variable {names parts xs : List String}

/-! ## Components -/

/-- The pieces of a text between slashes. -/
def cut (cs : List Char) : List (List Char) := cs.foldr components.split [[]]

theorem cut_slash (cs : List Char) : cut ('/' :: cs) = [] :: cut cs := by
  simp [cut, components.split]

theorem cut_cons_append {c : Char} {cs : List Char} {piece : List Char}
    {pieces more : List (List Char)} (hc : c ≠ '/') (h : cut cs = piece :: pieces) :
    components.split c (cut cs ++ more) = cut (c :: cs) ++ more := by
  have hcut : cut (c :: cs) = components.split c (cut cs) := rfl
  rw [hcut, h]
  simp [components.split, hc]

theorem exists_cut_eq (cs : List Char) : ∃ piece pieces, cut cs = piece :: pieces := by
  induction cs with
  | nil => exact ⟨[], [], rfl⟩
  | cons c cs ih =>
    obtain ⟨piece, pieces, h⟩ := ih
    by_cases hc : c = '/'
    · rw [hc, cut_slash]
      exact ⟨_, _, rfl⟩
    · refine ⟨c :: piece, pieces, ?_⟩
      rw [← List.append_nil (cut (c :: cs)), ← cut_cons_append hc h, List.append_nil, h]
      simp [components.split, hc]

/-- At a slash the text falls apart. -/
theorem cut_append_slash (cs ds : List Char) : cut (cs ++ '/' :: ds) = cut cs ++ cut ds := by
  induction cs with
  | nil => rw [List.nil_append, cut_slash, cut, cut, List.foldr_nil, List.singleton_append]
  | cons c cs ih =>
    by_cases hc : c = '/'
    · rw [hc, List.cons_append, cut_slash, cut_slash, ih, List.cons_append]
    · obtain ⟨piece, pieces, h⟩ := exists_cut_eq cs
      rw [← cut_cons_append hc h, ← ih]
      rfl

theorem cut_of_notMem {cs : List Char} (h : '/' ∉ cs) : cut cs = [cs] := by
  induction cs with
  | nil => rfl
  | cons c cs ih =>
    rw [List.mem_cons, not_or] at h
    rw [← List.append_nil (cut (c :: cs)), ← cut_cons_append (Ne.symm h.1) (ih h.2), ih h.2]
    simp [components.split, Ne.symm h.1]

theorem components_eq (path : String) : components path = (cut path.toList).map String.ofList := rfl

theorem components_append_slash (front back : String) :
    components (front ++ "/" ++ back) = components front ++ components back := by
  have hslash : "/".toList = ['/'] := rfl
  rw [components_eq, String.toList_append, String.toList_append, hslash, List.append_assoc,
    List.singleton_append, cut_append_slash, List.map_append, ← components_eq, ← components_eq]

theorem components_of_notMem {name : String} (h : '/' ∉ name.toList) :
    components name = [name] := by
  rw [components_eq, cut_of_notMem h, List.map_singleton, String.ofList_toList]

/-- Names with slashes between them fall apart into the names. -/
theorem components_intercalate (hne : names ≠ []) (h : ∀ name ∈ names, '/' ∉ name.toList) :
    components ("/".intercalate names) = names := by
  induction names with
  | nil => exact absurd rfl hne
  | cons name rest ih =>
    rw [List.forall_mem_cons] at h
    cases rest with
    | nil => rw [String.intercalate_singleton, components_of_notMem h.1]
    | cons next rest =>
      rw [String.intercalate_cons_cons, components_append_slash, components_of_notMem h.1,
        ih (by simp) h.2, List.singleton_append]

/-- A path below a root has the components of the root, but for the empty one behind a slash at its
end, and then the names below. -/
theorem components_join (root : String) :
    ∃ front, (components root = front ∨ components root = front ++ [""]) ∧
      ∀ parts, parts ≠ [] → (∀ name ∈ parts, '/' ∉ name.toList) →
        components (join root parts) = front ++ parts := by
  by_cases hlast : root.toList.getLast? = some '/'
  · obtain ⟨cs, hcs⟩ := List.getLast?_eq_some_iff.mp hlast
    have hroot : root = String.ofList cs ++ "/" ++ "" := by
      rw [← String.toList_inj, hcs]
      simp
    refine ⟨components (String.ofList cs), .inr ?_, fun parts hne h => ?_⟩
    · rw [hroot, components_append_slash]
      rfl
    · have hjoin : join root parts = String.ofList cs ++ "/" ++ "/".intercalate parts := by
        rw [join, if_pos hlast, hroot]
        simp
      rw [hjoin, components_append_slash, components_intercalate hne h]
  · refine ⟨components root, .inl rfl, fun parts hne h => ?_⟩
    rw [join, if_neg hlast, components_append_slash, components_intercalate hne h]

/-! ## Positions -/

/-- A name that an entry of a directory can have. -/
structure IsProper (name : String) : Prop where
  ne_empty : name ≠ ""
  ne_here : name ≠ "."
  ne_above : name ≠ ".."
  no_slash : '/' ∉ name.toList

instance (name : String) : Decidable (IsProper name) :=
  decidable_of_iff (name ≠ "" ∧ name ≠ "." ∧ name ≠ ".." ∧ '/' ∉ name.toList)
    ⟨fun h => ⟨h.1, h.2.1, h.2.2.1, h.2.2.2⟩, fun h => ⟨h.1, h.2, h.3, h.4⟩⟩

/-- The names on the way to where a walk is, the last first, after one component more. -/
def follow (way : List String) (name : String) : List String :=
  if name = "" ∨ name = "." then way else if name = ".." then way.tail else name :: way

namespace Entry

theorem canonical_eq (names : List String) :
    canonical names = (names.foldl follow []).reverse := rfl

theorem foldl_follow (h : ∀ name ∈ names, IsProper name) (way : List String) :
    names.foldl follow way = names.reverse ++ way := by
  induction names generalizing way with
  | nil => rfl
  | cons name names ih =>
    rw [List.forall_mem_cons] at h
    have hfollow : follow way name = name :: way := by
      simp [follow, h.1.ne_empty, h.1.ne_here, h.1.ne_above]
    rw [List.foldl_cons, hfollow, ih h.2, List.reverse_cons, List.append_assoc,
      List.singleton_append]

/-- Names below a position are appended to it. -/
theorem canonical_append (h : ∀ name ∈ parts, IsProper name) (front : List String) :
    canonical (front ++ parts) = canonical front ++ parts := by
  rw [canonical_eq, canonical_eq, List.foldl_append, foldl_follow h, List.reverse_append,
    List.reverse_reverse]

/-! ## Walks -/

variable {above : List Entry} {here e : Entry} {entries : List (String × Entry)} {name : String}

theorem walk_stay (h : name = "" ∨ name = ".") (rest : List String) :
    walk above (directory entries) (name :: rest) = walk above (directory entries) rest := by
  rw [walk.eq_def]
  exact if_pos h

theorem walk_up (outer : Entry) (rest : List String) :
    walk (outer :: above) (directory entries) (".." :: rest) = walk above outer rest := by
  rw [walk, if_neg (by decide), if_pos rfl]

/-- There is nothing above the top. -/
theorem walk_top (rest : List String) :
    walk [] (directory entries) (".." :: rest) = walk [] (directory entries) rest := by
  rw [walk, if_neg (by decide), if_pos rfl]

theorem walk_name (h : ¬ (name = "" ∨ name = ".")) (h' : name ≠ "..") (rest : List String) :
    walk above (directory entries) (name :: rest) =
      match entries.lookup name with
      | some entry => walk (directory entries :: above) entry rest
      | none => .error .notFound := by
  rw [walk.eq_def]
  exact (if_neg h).trans (if_neg h')

/-- A walk goes on from where it has come to, or has failed. -/
theorem walk_append (above : List Entry) (here : Entry) (xs : List String) :
    (∃ fault, ∀ ys, walk above here (xs ++ ys) = .error fault) ∨
      ∃ above' e, ∀ ys, walk above here (xs ++ ys) = walk above' e ys := by
  induction xs generalizing above here with
  | nil => exact .inr ⟨above, here, fun _ => rfl⟩
  | cons name xs ih =>
    cases here with
    | file => exact .inl ⟨.notDirectory, fun _ => rfl⟩
    | directory entries =>
      by_cases hstay : name = "" ∨ name = "."
      · simpa only [List.cons_append, walk_stay hstay] using ih above (directory entries)
      by_cases hup : name = ".."
      · subst hup
        cases above with
        | nil => simpa only [List.cons_append, walk_top] using ih [] (directory entries)
        | cons outer above => simpa only [List.cons_append, walk_up] using ih above outer
      · simp only [List.cons_append, walk_name hstay hup]
        cases entries.lookup name with
        | none => exact .inl ⟨.notFound, fun _ => rfl⟩
        | some entry => exact ih (directory entries :: above) entry

theorem walk_append_of_ok (h : walk above here xs = .ok e) :
    ∃ above', ∀ ys, walk above here (xs ++ ys) = walk above' e ys := by
  obtain ⟨fault, hwalk⟩ | ⟨above', e', hwalk⟩ := walk_append above here xs
  · have := hwalk []
    rw [List.append_nil, h] at this
    cases this
  · have := hwalk []
    rw [List.append_nil, h] at this
    cases this
    exact ⟨above', hwalk⟩

/-- A walk that has come to a file cannot go on. -/
theorem walk_beyond_file {content : Except ReadFault (List UInt8)}
    (hfile : walk above here xs = .ok (file content)) {ys : List String} (hys : xs <+: ys) :
    xs = ys ∨ walk above here ys = .error .notDirectory := by
  obtain ⟨more, rfl⟩ := hys
  cases more with
  | nil => exact .inl (List.append_nil xs).symm
  | cons name more =>
    obtain ⟨above', hwalk⟩ := walk_append_of_ok hfile
    exact .inr (hwalk _)

/-- An empty component at the end of a path changes nothing when the path leads to a directory. -/
theorem walk_of_walk_empty (h : walk above here (xs ++ [""]) = .ok (directory entries)) :
    walk above here xs = .ok (directory entries) := by
  obtain ⟨fault, hwalk⟩ | ⟨above', e', hwalk⟩ := walk_append above here xs
  · rw [hwalk] at h
    cases h
  · have hxs := hwalk []
    rw [List.append_nil] at hxs
    rw [hwalk] at h
    rw [hxs]
    cases e' with
    | file => cases h
    | directory entries' => rwa [walk_stay (.inl rfl)] at h

end Entry

/-! ## Sources -/

variable {tree : Entry} {path : String} {entries : List (String × Entry)}

/-- The sources of a directory, if it has any, in order. -/
theorem discover_directory (h : tree.resolve path = .ok (.directory entries)) :
    discover tree path = if sourcesIn entries = [] then .error (.noSources path)
      else .ok (((sourcesIn entries).mergeSort precedes).map (join path)) := by
  have hperm := List.mergeSort_perm (sourcesIn entries) precedes
  rw [discover, h]
  dsimp only
  cases hsorted : (sourcesIn entries).mergeSort precedes with
  | nil => rw [if_pos (hsorted ▸ hperm).nil_eq.symm]
  | cons parts rest =>
    rw [if_neg]
    intro hempty
    rw [hsorted, hempty] at hperm
    exact absurd hperm.eq_nil (List.cons_ne_nil _ _)

theorem mem_of_discover {files : List String} {source : String}
    (h : tree.resolve path = .ok (.directory entries)) (hfiles : discover tree path = .ok files)
    (hsource : source ∈ files) : ∃ parts ∈ sourcesIn entries, join path parts = source := by
  rw [discover_directory h] at hfiles
  split at hfiles
  · cases hfiles
  · cases hfiles
    obtain ⟨parts, hparts, hjoin⟩ := List.mem_map.mp hsource
    exact ⟨parts, (List.mergeSort_perm _ _).mem_iff.mp hparts, hjoin⟩

theorem exists_discover (h : tree.resolve path = .ok (.directory entries))
    (hparts : parts ∈ sourcesIn entries) :
    ∃ files, discover tree path = .ok files ∧ join path parts ∈ files := by
  rw [discover_directory h, if_neg (List.ne_nil_of_mem hparts)]
  exact ⟨_, rfl, List.mem_map_of_mem ((List.mergeSort_perm _ _).mem_iff.mpr hparts)⟩

/-- A path to anything but a directory is taken as it is. -/
theorem discover_other (h : ∀ entries, tree.resolve path ≠ .ok (.directory entries)) :
    discover tree path = .ok [path] := by
  unfold discover
  split
  · next hresolve => exact absurd hresolve (h _)
  · rfl

end FirSyntax.Project
