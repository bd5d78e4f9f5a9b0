import Distill.Proofs.Cache.Layout
import Distill.Proofs.Files.Ways
import Distill.Proofs.Results

/-!
# Lists file by file

The list of the successes of an archive is put together from what is found in the files of its
artifacts, one by one. So it can be said of the list without one of the files that it has not
changed.

## Main definitions

* `Cache.listing` — the files of artifacts with what a list takes from each.
* `Cache.nodeAt` — what a list has of one file.

## Main statements

* `Cache.list_eq_listing` — the list is made of this.
* `Cache.perm_of_list` — one file and the others.
-/

namespace Distill.Cache

open FileTree (GrownAlong IsOrdinary IsShort)

variable {c : Cache} {archive node : String} {names : List String} {path : List String}
  {entries : List (List String × Except CacheError (Option String))}

/-- The names in the directory of the artifacts of an archive, none if that is not found. -/
def foundNames (c : Cache) (archive : String) : Except FileError (List String) :=
  match c.find (·.names (artifactsPath archive)) with
  | .error .notFound => .ok []
  | found => found

theorem foundNames_of_root {t : FileTree} (h : c.root = some t) :
    c.foundNames archive = t.foundNames (artifactsPath archive) := by
  rw [foundNames, find_of_root h]
  rfl

theorem foundNames_of_root_none (h : c.root = none) : c.foundNames archive = .ok [] := by
  rw [foundNames, find_of_root_none h]

/-- These are the names of what stands there. -/
theorem mem_of_foundNames (hc : c.tree.Plain) (h : c.foundNames archive = .ok names) :
    names.Nodup ∧
      ∀ name, name ∈ names ↔ c.tree.look (artifactsPath archive ++ [name]) ≠ none := by
  rcases c.find_cases (·.names (artifactsPath archive)) with ⟨hroot, -⟩ | ⟨hroot, htree, -⟩
  · rw [foundNames_of_root hroot] at h
    exact FileTree.mem_of_foundNames hc (Place.artifacts archive).isOrdinary h
  · rw [foundNames_of_root_none hroot] at h
    obtain rfl := Except.ok.inj h
    refine ⟨List.nodup_nil, fun name => ?_⟩
    rw [htree, FileTree.look_empty (by simp)]
    simp

/-- The files of artifacts of an archive, each with its node if that has succeeded. -/
def listing (c : Cache) (archive : String) :
    Except CacheError (List (List String × Except CacheError (Option String))) :=
  match c.foundNames archive with
  | .error e => .error (.io e)
  | .ok names => .ok <| (names.filter isArtifactName).map fun name =>
      (artifactsPath archive ++ [name], c.succeeded? (artifactsPath archive ++ [name]))

theorem listing_eq_ok_iff : c.listing archive = .ok entries ↔
    ∃ names, c.foundNames archive = .ok names ∧
      entries = (names.filter isArtifactName).map fun name =>
        (artifactsPath archive ++ [name], c.succeeded? (artifactsPath archive ++ [name])) := by
  rw [listing]
  cases c.foundNames archive with
  | error e => simp
  | ok names => simp [eq_comm]

/-- The list of the successes, if each file can be read. -/
def listed (entries : List (List String × Except CacheError (Option String))) :
    Except CacheError (List String) := do
  let nodes ← entries.mapM (·.2)
  return (nodes.filterMap id).mergeSort fun a b => a ≤ b

/-- **The list is made of the files, one by one.** -/
theorem list_eq_listing (c : Cache) (archive : String) :
    c.list archive = (c.listing archive).bind listed := by
  rw [list, listing, foundNames]
  cases c.find (·.names (artifactsPath archive)) with
  | error e =>
      cases e with
      | notFound =>
          have hnone : listed [] = .ok [] := by simp [listed, pure, Except.pure, bind, Except.bind]
          exact hnone.symm
      | _ => rfl
  | ok names =>
      simp only [Except.bind, listed, List.mapM_map]
      rfl

/-- The node that a list has of a file. -/
def nodeAt (c : Cache) (path : List String) : Option String := (c.succeeded? path).toOption.join

/-- The nodes of files that can be read. -/
def nodesOf (entries : List (List String × Except CacheError (Option String))) : List String :=
  entries.filterMap fun e => e.2.toOption.join

theorem nodesOf_singleton (c : Cache) (path : List String) :
    nodesOf [(path, c.succeeded? path)] = (c.nodeAt path).toList := by
  rw [nodesOf, List.filterMap_cons, nodeAt]
  cases (c.succeeded? path).toOption.join <;> rfl

theorem listed_eq_ok_iff :
    listed entries = .ok names ↔ (∀ e ∈ entries, ∃ n, e.2 = .ok n) ∧
      names = (nodesOf entries).mergeSort fun a b => a ≤ b := by
  have hnodes : ∀ nodes : List (Option String), entries.map (·.2) = nodes.map .ok →
      nodes.filterMap id = nodesOf entries := by
    intro nodes h
    have hmap : nodesOf entries = (entries.map (·.2)).filterMap fun r => r.toOption.join := by
      rw [List.filterMap_map]
      rfl
    rw [hmap, h, List.filterMap_map]
    rfl
  rw [listed, bind_eq_ok_iff]
  constructor
  · rintro ⟨nodes, hall, h⟩
    rw [mapM_eq_ok_iff] at hall
    refine ⟨exists_map_eq_map_ok_iff.mp ⟨nodes, hall⟩, ?_⟩
    rw [← Except.ok.inj h, hnodes nodes hall]
  · rintro ⟨hall, rfl⟩
    obtain ⟨nodes, hmap⟩ := exists_map_eq_map_ok_iff.mpr hall
    exact ⟨nodes, mapM_eq_ok_iff.mpr hmap, by rw [hnodes nodes hmap]; rfl⟩

/-- A list has a node of a file only if that is there. -/
theorem look_of_nodeAt (hc : c.tree.Plain) {n : String}
    (h : c.nodeAt (artifactPath archive node) = some n) :
    c.tree.look (artifactPath archive node) ≠ none := by
  rw [nodeAt, succeeded?] at h
  cases hread : c.find (·.read (artifactPath archive node)) with
  | error e => simp [hread, Except.toOption] at h
  | ok data =>
      obtain ⟨hfile, -⟩ := (find_read_eq_ok_iff isOrdinary_of_mem_artifactPath
        (hc.direct (artifactPath archive node)) artifactPath_ne_nil).mp hread
      rw [FileTree.fileAt_eq_some_iff.mp hfile]
      simp

/-- One file of an archive and the others. -/
theorem nodesOf_perm (hc : c.tree.Plain) (h : c.listing archive = .ok entries) :
    (nodesOf entries).Perm ((c.nodeAt (artifactPath archive node)).toList ++
      nodesOf (entries.filter (·.1 ≠ artifactPath archive node))) := by
  obtain ⟨files, hfiles, rfl⟩ := listing_eq_ok_iff.mp h
  obtain ⟨hnodup, hmem⟩ := mem_of_foundNames hc hfiles
  set entry := fun name =>
    (artifactsPath archive ++ [name], c.succeeded? (artifactsPath archive ++ [name])) with hentry
  have hthis : ∀ name, isArtifactName name = true ∧
      artifactsPath archive ++ [name] = artifactPath archive node ↔ name = artifactName node := by
    intro name
    rw [artifactPath, List.append_cancel_left_eq, List.singleton_inj]
    refine ⟨And.right, ?_⟩
    rintro rfl
    exact ⟨isArtifactName_artifactName node, rfl⟩
  have hone : nodesOf (((files.filter isArtifactName).map entry).filter
      (·.1 = artifactPath archive node)) = (c.nodeAt (artifactPath archive node)).toList := by
    rw [List.filter_map, List.filter_filter]
    have hfilter : files.filter (fun name =>
        ((fun e => decide (e.1 = artifactPath archive node)) ∘ entry) name && isArtifactName name) =
          files.filter (· == artifactName node) := by
      refine List.filter_congr fun name _ => ?_
      rw [Bool.eq_iff_iff]
      simpa [hentry, and_comm] using hthis name
    rw [hfilter, List.filter_beq]
    by_cases hthere : artifactName node ∈ files
    · rw [List.count_eq_one_of_mem hnodup hthere]
      exact nodesOf_singleton c (artifactPath archive node)
    · rw [List.count_eq_zero_of_not_mem hthere]
      cases hnode : c.nodeAt (artifactPath archive node) with
      | none => rfl
      | some n =>
          exact absurd ((hmem _).mpr (look_of_nodeAt hc hnode)) hthere
  have hsplit := (List.filter_append_perm
    (fun e : List String × Except CacheError (Option String) => e.1 = artifactPath archive node)
    ((files.filter isArtifactName).map entry)).symm.filterMap fun e => e.2.toOption.join
  rw [List.filterMap_append] at hsplit
  rw [← hone]
  simpa [nodesOf] using hsplit

/-- **One file of an archive and the others make up the list.** -/
theorem perm_of_list (hc : c.tree.Plain) (h : c.listing archive = .ok entries)
    (hlist : c.list archive = .ok names) :
    names.Perm ((c.nodeAt (artifactPath archive node)).toList ++
      nodesOf (entries.filter (·.1 ≠ artifactPath archive node))) := by
  rw [list_eq_listing, h] at hlist
  obtain ⟨-, rfl⟩ := listed_eq_ok_iff.mp hlist
  exact (List.mergeSort_perm _ _).trans (nodesOf_perm hc h)

/-- The name of the file of an artifact is not a special one. -/
theorem isOrdinary_of_isArtifactName {name : String} (h : isArtifactName name = true) :
    IsOrdinary name := by
  constructor
  · rintro rfl
    exact absurd h (by decide)
  · rintro rfl
    exact absurd h (by decide)

/-- **Files are listed as before where nothing but directories have been made.** -/
theorem filter_listing {t u : FileTree} (ht : t.Plain) (hu : u.Plain)
    (hgrown : GrownAlong (artifactsPath archive) t u) (keep : List String → Bool)
    (hkeep : ∀ name, isArtifactName name = true → keep (artifactsPath archive ++ [name]) = true →
      u.look (artifactsPath archive ++ [name]) = t.look (artifactsPath archive ++ [name])) :
    ((c.withTree u).listing archive).map (List.filter fun e => keep e.1) =
      ((c.withTree t).listing archive).map (List.filter fun e => keep e.1) := by
  have hordinary := (Place.artifacts archive).isOrdinary
  have hnames : ∀ t : FileTree, (c.withTree t).foundNames archive =
      t.foundNames (artifactsPath archive) := fun t => foundNames_of_root (c.root_withTree t)
  rw [listing, listing, hnames, hnames]
  by_cases hshort : IsShort (encodeName archive)
  · have hall : ∀ name ∈ artifactsPath archive, IsShort name := by
      have hartifacts : IsShort "artifacts" := by decide
      simp [artifactsPath, hshort, hartifacts]
    have hfound := hgrown.filter_foundNames ht hu hordinary hall
      (fun name => isArtifactName name && keep (artifactsPath archive ++ [name]))
      fun name hname => by
        rw [Bool.and_eq_true] at hname
        exact hkeep name hname.1 hname.2
    cases hbefore : t.foundNames (artifactsPath archive) with
    | error e =>
        rw [hbefore] at hfound
        cases hafter : u.foundNames (artifactsPath archive) with
        | error e' =>
            rw [hafter] at hfound
            obtain rfl := Except.error.inj hfound
            rfl
        | ok after => simp [hafter, Except.map] at hfound
    | ok before =>
        rw [hbefore] at hfound
        cases hafter : u.foundNames (artifactsPath archive) with
        | error e => simp [hafter, Except.map] at hfound
        | ok after =>
            rw [hafter] at hfound
            have hsame := Except.ok.inj hfound
            obtain ⟨-, hmem⟩ := FileTree.mem_of_foundNames ht hordinary hbefore
            simp only [Except.map, List.filter_map, List.filter_filter, Function.comp_def]
            simp only [Bool.and_comm] at hsame ⊢
            rw [hsame]
            refine congrArg _ (List.map_congr_left fun name hname => ?_)
            obtain ⟨hthere, hkept⟩ := List.mem_filter.mp hname
            rw [Bool.and_eq_true] at hkept
            have hpath : ∀ n ∈ artifactsPath archive ++ [name], IsOrdinary n := by
              intro n hn
              rcases List.mem_append.mp hn with hn | hn
              · exact hordinary n hn
              · rw [List.mem_singleton.mp hn]
                exact isOrdinary_of_isArtifactName hkept.2
            have hread := hgrown.read_of_there ht hpath ((hmem name).mp hthere)
              (hkeep name hkept.2 hkept.1)
            rw [succeeded?, succeeded?, find_of_root (c.root_withTree u),
              find_of_root (c.root_withTree t), hread]
            rfl
  · have hlong : ∀ t : FileTree, t.foundNames (artifactsPath archive) = .error .nameTooLong := by
      intro t
      have hresolve : t.resolve (artifactsPath archive) = .error .nameTooLong :=
        FileTree.resolve_of_long (isOrdinary_encodeName archive) hshort
      rw [FileTree.foundNames, FileTree.names_of_resolve_error hresolve]
    rw [hlong, hlong]

end Distill.Cache
