import Distill.Proofs.Cache.Entries
import Distill.Proofs.Files.Success
import Mathlib.Data.Set.List

/-!
# The layout of a cache

A cache that nothing but its own operations has touched holds a directory for each archive, in
it the file of the conclusions and the directory of the artifacts, and in that a file for each
node. So a file is never in the way of another, and an operation can fail in one way only: a
name is too long.

## Main definitions

* `Cache.Place` — what stands where.
* `Cache.Tidy` — caches in which nothing stands anywhere else.

## Main statements

* `Cache.Tidy.put`, `Cache.Tidy.putConclusions`, `Cache.Tidy.invalidate`, `Cache.Tidy.clear` —
  the operations keep a cache tidy.
* `Cache.Tidy.readFile?_of_file`, `Cache.Tidy.readFile?_of_none` — which files are found.
* `Cache.Tidy.writeFile_fst` — which files can be written.
* `Cache.Tidy.invalidate_of_file`, `Cache.Tidy.invalidate_of_none`, `Cache.Tidy.clear_fst` — what
  can be taken away.
* `Cache.Tidy.names_of_directory` — which artifacts an archive has.
-/

namespace Distill.Cache

open FileTree (IsOrdinary IsShort Clear Possible)

variable {c : Cache} {archive node name : String} {directory path q : List String} {e : Entry}
  {content : Bytes}

/-! ## Places -/

/-- What stands where in a cache. -/
inductive Place : List String → Entry → Prop
  | root : Place [] (.directory [])
  | archive (archive : String) : Place [encodeName archive] (.directory [])
  | artifacts (archive : String) : Place (artifactsPath archive) (.directory [])
  | artifact (archive node : String) (content : Bytes) :
      Place (artifactPath archive node) (.file content)
  | conclusions (archive : String) (content : Bytes) :
      Place (conclusionsPath archive) (.file content)

/-- Only files and directories have a place. -/
theorem Place.directory_or_file (h : Place path e) : e = .directory [] ∨ ∃ b, e = .file b := by
  cases h with
  | root | archive | artifacts => exact Or.inl rfl
  | artifact | conclusions => exact Or.inr ⟨_, rfl⟩

/-- Where a file may stand, any content may stand. -/
theorem Place.file (h : Place path (.file content)) (other : Bytes) : Place path (.file other) := by
  cases h with
  | artifact archive node => exact .artifact archive node other
  | conclusions archive => exact .conclusions archive other

/-- **No file stands where a directory may stand.** -/
theorem Place.not_file (h : Place path (.directory [])) : ¬ Place path (.file content) := by
  intro hfile
  cases hfile with
  | artifact archive node =>
      generalize hpath : artifactPath archive node = path at h
      rw [artifactPath_eq] at hpath
      cases h <;> simp [artifactsPath] at hpath
  | conclusions archive =>
      generalize hpath : conclusionsPath archive = path at h
      rw [conclusionsPath_eq] at hpath
      cases h <;> simp [artifactsPath] at hpath

theorem Place.parent (h : Place path e) : Place path.dropLast (.directory []) := by
  cases h with
  | root | archive => exact .root
  | artifacts archive | conclusions archive => exact .archive archive
  | artifact archive node => exact .artifacts archive

/-- Above a place are directories. -/
theorem Place.above (h : Place path e) (hq : q <+: path) (hne : q ≠ path) :
    Place q (.directory []) := by
  induction path using List.reverseRecOn generalizing e with
  | nil => exact absurd (List.prefix_nil.mp hq) hne
  | append_singleton directory name ih =>
      have hparent := h.parent
      rw [List.dropLast_concat] at hparent
      rcases List.prefix_concat_iff.mp hq with rfl | hbelow
      · exact absurd rfl hne
      · by_cases hdir : q = directory
        · rwa [hdir]
        · exact ih hparent hbelow hdir

/-- In the directory of the artifacts stand artifacts. -/
theorem Place.exists_artifactName (h : Place (artifactsPath archive ++ [name]) e) :
    ∃ node, name = artifactName node := by
  generalize hpath : artifactsPath archive ++ [name] = path at h
  cases h with
  | artifact archive' node =>
      refine ⟨node, ?_⟩
      have hlast := congrArg (·.getLastD "") hpath
      rwa [artifactPath, List.getLastD_concat, List.getLastD_concat] at hlast
  | root | archive | artifacts | conclusions =>
      have hlength := congrArg List.length hpath
      simp [artifactsPath, conclusionsPath_eq] at hlength

/-- No place has the name of a temporary file. -/
theorem Place.temporary_notMem (h : Place path e) (hname : FileTree.IsTemporary name) :
    name ∉ path := by
  obtain ⟨rest, rfl, -⟩ := hname
  have hchars : (".tmp" ++ rest).toList = '.' :: ("tmp".toList ++ rest.toList) := by
    rw [String.toList_append]
    rfl
  have hfixed : ∀ s : String, ".tmp" ++ rest = s → s.toList.head? = some '.' := by
    rintro s rfl
    rw [hchars, List.head?_cons]
  have hartifacts : ".tmp" ++ rest ≠ "artifacts" := fun heq => absurd (hfixed _ heq) (by decide)
  have hconclusions : ".tmp" ++ rest ≠ "conclusions.json" :=
    fun heq => absurd (hfixed _ heq) (by decide)
  have hencoded : ∀ name ending, ".tmp" ++ rest ≠ encodeName name ++ ending :=
    fun name ending heq => encodeName_append_ne name ending hchars heq.symm
  have hname : ∀ name, ".tmp" ++ rest ≠ encodeName name := fun name heq =>
    hencoded name "" (by rwa [String.append_empty])
  cases h with
  | root => simp
  | archive archive => simp [hname]
  | artifacts archive => simp [artifactsPath, hname, hartifacts]
  | artifact archive node =>
      simp [artifactPath_eq, hname, hartifacts, artifactName, hencoded]
  | conclusions archive => simp [conclusionsPath_eq, hname, hconclusions]

theorem Place.isOrdinary (h : Place path e) : ∀ name ∈ path, IsOrdinary name := by
  have hencoded := isOrdinary_encodeName
  have hartifact := isOrdinary_artifactName
  have hartifacts : IsOrdinary "artifacts" := ⟨by decide, by decide⟩
  have hconclusions : IsOrdinary "conclusions.json" := ⟨by decide, by decide⟩
  cases h with
  | root => simp
  | archive archive => simp [hencoded]
  | artifacts archive => simp [artifactsPath, hencoded, hartifacts]
  | artifact archive node => simp [artifactPath_eq, hencoded, hartifacts, hartifact]
  | conclusions archive => simp [conclusionsPath_eq, hencoded, hconclusions]

/-! ## Tidy caches -/

/-- Everything has its place, the names are not too long, and in each directory they are
ascending. -/
structure Tidy (c : Cache) : Prop where
  place : ∀ path e, c.tree.look path = some e → Place path e
  possible : c.tree.Possible
  ordered : c.tree.Ordered

theorem tidy_fresh (location : String) : (fresh location).Tidy := by
  have hlook : ∀ path e, (fresh location).tree.look path = some e → path = [] := by
    intro path e h
    by_contra hne
    rw [tree_fresh, FileTree.look_empty hne] at h
    simp at h
  refine ⟨fun path e h => ?_, fun path h => ?_, FileTree.ordered_nil⟩
  · obtain rfl := hlook path e h
    rw [FileTree.look_nil, Option.some.injEq] at h
    rw [← h]
    exact .root
  · obtain ⟨e, he⟩ := Option.ne_none_iff_exists'.mp h
    simp [hlook path e he]

namespace Tidy

variable (hc : c.Tidy)
include hc

/-- No links are made. -/
theorem direct (archive : String) : c.Direct archive := by
  intro node q _ target hlink
  cases hc.place q _ hlink

/-- Where a directory may stand, there is a directory or nothing. -/
theorem look_of_directory (h : Place path (.directory [])) :
    c.tree.look path = none ∨ c.tree.look path = some (.directory []) := by
  cases hlook : c.tree.look path with
  | none => exact Or.inl rfl
  | some e =>
      rcases (hc.place path e hlook).directory_or_file with rfl | ⟨b, rfl⟩
      · exact Or.inr rfl
      · exact absurd (hc.place path _ hlook) h.not_file

/-- The way to a place is clear. -/
theorem clear_of_place (h : Place path e) (hdir : q <+: path) (hne : q ≠ path) :
    c.tree.Clear q := by
  intro r hr
  refine hc.look_of_directory (h.above (hr.trans hdir) ?_)
  rintro rfl
  exact hne (List.IsPrefix.eq_of_length hdir (Nat.le_antisymm hdir.length_le hr.length_le))

/-- Where a file may stand, there is a file or nothing. -/
theorem look_eq_none (h : Place path (.file content)) (hnone : c.tree.fileAt path = none) :
    c.tree.look path = none := by
  cases hlook : c.tree.look path with
  | none => rfl
  | some e =>
      have hplace := hc.place path e hlook
      rcases hplace.directory_or_file with rfl | ⟨b, rfl⟩
      · exact absurd h hplace.not_file
      · rw [FileTree.fileAt_eq_some_iff.mpr hlook] at hnone
        simp at hnone

/-! ### Reading -/

/-- A file that is there is found. -/
theorem resolve_of_file (h : Place path e) (hfile : c.tree.fileAt path = some content) :
    c.find (·.resolve path) = .ok path := by
  have hlook := FileTree.fileAt_eq_some_iff.mp hfile
  rw [find_of_root (root_of_fileAt hfile)]
  exact FileTree.resolve_of_look h.isOrdinary (hc.possible path (by simp [hlook])) hlook (by simp)

/-- **What is not there is not found,** unless a name is too long. -/
theorem resolve_of_none (h : Place path e) (hnone : c.tree.look path = none) :
    c.find (·.resolve path) = .error .notFound ∨
      (∃ name ∈ path, ¬ IsShort name) ∧ c.find (·.resolve path) = .error .nameTooLong := by
  rcases c.find_cases (·.resolve path) with ⟨-, hfind⟩ | ⟨-, -, hfind⟩
  · rw [hfind]
    refine FileTree.resolve_of_clear h.isOrdinary (fun q hq => ?_) hnone
    by_cases hne : q = path
    · exact Or.inl (hne ▸ hnone)
    · exact hc.clear_of_place h hq hne q (List.prefix_refl q)
  · exact Or.inl hfind

/-- **A file that is there is read.** -/
theorem read_of_file (h : Place path e) (hfile : c.tree.fileAt path = some content) :
    c.find (·.read path) = .ok content := by
  have hlook := FileTree.fileAt_eq_some_iff.mp hfile
  rw [find_of_root (root_of_fileAt hfile)]
  have hdirect : c.tree.Direct path := fun q _ target hlink => by cases hc.place q _ hlink
  exact (FileTree.read_eq_ok_iff h.isOrdinary hdirect).mpr
    ⟨hfile, hc.possible path (by simp [hlook])⟩

theorem readFile?_of_file (h : Place path e) (hfile : c.tree.fileAt path = some content) :
    c.readFile? path = .ok (some content) := by
  rw [readFile?, hc.read_of_file h hfile]

theorem readFile?_of_none (h : Place path (.file content)) (hnone : c.tree.fileAt path = none) :
    c.readFile? path = .ok none ∨
      (∃ name ∈ path, ¬ IsShort name) ∧ c.readFile? path = .error (.io .nameTooLong) := by
  rcases hc.resolve_of_none h (hc.look_eq_none h hnone) with hfound | ⟨hlong, hfound⟩
  · exact Or.inl (by rw [readFile?, find_read_of_resolve_error hfound])
  · exact Or.inr ⟨hlong, by rw [readFile?, find_read_of_resolve_error hfound]⟩

/-! ### Writing -/

/-- **A file can be written, unless a name is too long.** -/
theorem writeFile_fst (h : Place (directory ++ [name]) (.file content)) (data : Bytes) :
    (c.writeFile directory name data).1 =
      if ∀ n ∈ directory ++ [name], IsShort n then .ok () else .error (.io .nameTooLong) := by
  have hclear : c.tree.Clear directory :=
    hc.clear_of_place h (List.prefix_append _ _) (by simp)
  have hfree : c.tree.look (directory ++ [name]) ≠ some (.directory []) :=
    fun hlook => (hc.place _ _ hlook).not_file h
  have hnone : c.tree.look (directory ++ [".tmp0"]) = none := by
    cases hlook : c.tree.look (directory ++ [".tmp0"]) with
    | none => rfl
    | some e =>
        have hname : FileTree.IsTemporary ".tmp0" := ⟨"0", by decide, by decide⟩
        exact absurd (by simp) ((hc.place _ e hlook).temporary_notMem hname)
  have hwrite := FileTree.writeAtomic_fst hclear hc.possible hfree hnone data
  rw [writeFile]
  generalize c.tree.writeAtomic directory name data = written at hwrite
  obtain ⟨failure, tree⟩ := written
  simp only at hwrite ⊢
  rw [hwrite]
  split <;> rfl

theorem writeFile (h : Place (directory ++ [name]) (.file content)) (data : Bytes) :
    (c.writeFile directory name data).2.Tidy := by
  refine ⟨fun path e hlook => ?_, hc.possible.writeAtomic _ _ _, hc.ordered.writeAtomic _ _ _⟩
  obtain ⟨u, hgrown, -, hwritten⟩ := FileTree.look_writeAtomic directory name data c.tree
  have hlook' : (c.tree.writeAtomic directory name data).2.look path = some e := hlook
  rw [hwritten] at hlook'
  split at hlook'
  · next hpath =>
    rw [← Option.some.inj hlook', hpath.2]
    exact h.file data
  · rcases hgrown path with heq | ⟨hbelow, -, hdir, -⟩
    · exact hc.place path e (heq ▸ hlook')
    · rw [hdir, Option.some.injEq] at hlook'
      rw [← hlook']
      refine h.above (hbelow.trans (List.prefix_append _ _)) ?_
      rintro rfl
      exact absurd hbelow.length_le (by simp)

/-- Nothing that is taken away leaves anything behind. -/
theorem erase (directory : List String) (name : String) :
    Tidy (c.withTree (c.tree.erase (directory ++ [name]))) := by
  refine ⟨fun path e hlook => ?_, hc.possible.erase _ _, hc.ordered.erase _⟩
  have hlook' : (c.tree.erase (directory ++ [name])).look path = some e := hlook
  rw [FileTree.look_erase] at hlook'
  split at hlook'
  · simp at hlook'
  · exact hc.place path e hlook'

/-! ### Operations -/

/-- An artifact that has a file can be stored, unless a name is too long. -/
theorem put_fst {a : Artifact} (archive : String) (h : encode a = .ok content) :
    (c.put archive a).1 =
      if Fits archive a.node then .ok () else .error (.io .nameTooLong) := by
  rw [Cache.put, h]
  exact (hc.writeFile_fst (.artifact archive a.node []) content).trans
    (if_congr isShort_artifactPath_iff rfl rfl)

theorem put (archive : String) (a : Artifact) : (c.put archive a).2.Tidy := by
  rw [Cache.put]
  cases encode a with
  | error e => exact hc
  | ok data => exact hc.writeFile (.artifact archive a.node []) data

/-- Conclusions can be stored, unless the name of the archive is too long. -/
theorem putConclusions_fst (archive : String) (cs : List Conclusion) :
    (c.putConclusions archive cs).1 =
      if IsShort (encodeName archive) then .ok () else .error (.io .nameTooLong) :=
  (hc.writeFile_fst (.conclusions archive []) _).trans
    (if_congr isShort_conclusionsPath_iff rfl rfl)

theorem putConclusions (archive : String) (cs : List Conclusion) :
    (c.putConclusions archive cs).2.Tidy :=
  hc.writeFile (.conclusions archive []) _

/-- Whether a file was taken away. -/
theorem invalidate_of_file (hfile : c.fileOf archive node = some content) :
    (c.invalidate archive node).1 = .ok true := by
  have hlook : c.tree.look (artifactPath archive node) = some (.file content) :=
    FileTree.fileAt_eq_some_iff.mp hfile
  have hdir : c.tree.hasDirectory (artifactPath archive node) = false :=
    FileTree.hasDirectory_eq_false_iff.mpr (by simp [hlook])
  rw [Cache.invalidate, find_locate isOrdinary_of_mem_artifactPath (hc.direct archive node)
    artifactPath_ne_nil, hc.resolve_of_file (.artifact archive node content) hfile]
  simp [hdir]

theorem invalidate_of_none (hfile : c.fileOf archive node = none) :
    c.invalidate archive node = (.ok false, c) ∨
      ¬ Fits archive node ∧ c.invalidate archive node = (.error (.io .nameTooLong), c) := by
  have hplace : Place (artifactPath archive node) (.file []) := .artifact archive node []
  have hlocate := find_locate isOrdinary_of_mem_artifactPath (hc.direct archive node)
    artifactPath_ne_nil
  rcases hc.resolve_of_none hplace (hc.look_eq_none hplace hfile) with
    hresolve | ⟨⟨name, hname, hlong⟩, hresolve⟩
  · exact Or.inl (by rw [Cache.invalidate, hlocate, hresolve])
  · refine Or.inr ⟨fun hfits => hlong (isShort_artifactPath_iff.mpr hfits name hname), ?_⟩
    rw [Cache.invalidate, hlocate, hresolve]

theorem invalidate (archive node : String) : (c.invalidate archive node).2.Tidy := by
  rcases invalidate_cases (hc.direct archive) node with ⟨r, -, h⟩ | ⟨-, h⟩
  · rw [h]
    exact hc
  · rw [h]
    exact hc.erase (artifactsPath archive) (artifactName node)

/-- An archive can be emptied, unless its name is too long. -/
theorem clear_fst (archive : String) :
    (c.clear archive).1 = .ok () ∨
      ¬ IsShort (encodeName archive) ∧ c.clear archive = (.error (.io .nameTooLong), c) := by
  have hplace := Place.archive archive
  have hlocate := find_locate isOrdinary_of_mem_archive (direct_archive (hc.direct archive))
    (List.cons_ne_nil _ _)
  rcases hc.look_of_directory hplace with hnone | hdir
  · rcases hc.resolve_of_none hplace hnone with hresolve | ⟨hlong, hresolve⟩
    · exact Or.inl (by rw [Cache.clear, hlocate, hresolve])
    · exact Or.inr ⟨by simpa using hlong, by rw [Cache.clear, hlocate, hresolve]⟩
  · have hthere : c.tree.look [encodeName archive] ≠ none := by simp [hdir]
    have hroot := root_of_look hthere (List.cons_ne_nil _ _)
    have hresolve := FileTree.resolve_of_look hplace.isOrdinary
      (hc.possible _ (by simp [hdir])) hdir (by simp)
    have hentry := FileTree.hasDirectory_iff.mpr hdir
    rw [Cache.clear, hlocate, find_of_root hroot, hresolve]
    rw [FileTree.hasDirectory] at hentry
    split at hentry
    · next es hes => simp [hes]
    · simp at hentry

theorem clear (archive : String) : (c.clear archive).2.Tidy := by
  rcases clear_cases (hc.direct archive) with ⟨-, h⟩ | ⟨e, h⟩ | h
  · rw [h]
    exact hc
  · rw [h]
    exact hc
  · rw [h]
    exact hc.erase [] (encodeName archive)

/-! ### Listing -/

/-- **The names in the directory of the artifacts are those of their nodes.** -/
theorem names_of_directory (hlook : c.tree.look (artifactsPath archive) = some (.directory [])) :
    ∃ nodes : List String,
      c.find (·.names (artifactsPath archive)) = .ok (nodes.map artifactName) ∧ nodes.Nodup ∧
        ∀ node, node ∈ nodes ↔ c.fileOf archive node ≠ none := by
  have hthere : c.tree.look (artifactsPath archive) ≠ none := by simp [hlook]
  have hroot := root_of_look hthere (List.cons_ne_nil _ _)
  obtain ⟨names, hnames, hsorted, hmem⟩ :=
    FileTree.names_of_look (Place.artifacts archive).isOrdinary hc.possible hc.ordered hlook
  obtain ⟨nodes, rfl⟩ : names ∈ Set.range (List.map artifactName) := by
    rw [Set.range_list_map]
    intro name hname
    obtain ⟨e, he⟩ := Option.ne_none_iff_exists'.mp ((hmem name).mp hname)
    obtain ⟨node, rfl⟩ := (hc.place _ e he).exists_artifactName
    exact ⟨node, rfl⟩
  refine ⟨nodes, (find_of_root hroot _).trans hnames, hsorted.nodup.of_map, fun node => ?_⟩
  rw [← List.mem_map_of_injective fun _ _ h => artifactName_injective h, hmem]
  refine not_congr ⟨fun hnone => ?_, hc.look_eq_none (.artifact archive node [])⟩
  rw [fileOf, FileTree.fileAt, artifactPath, hnone]
  rfl

theorem names_of_missing (hlook : c.tree.look (artifactsPath archive) = none) :
    c.find (·.names (artifactsPath archive)) = .error .notFound ∨
      ¬ IsShort (encodeName archive) ∧
        c.find (·.names (artifactsPath archive)) = .error .nameTooLong := by
  have hartifacts : IsShort "artifacts" := by decide
  rcases hc.resolve_of_none (.artifacts archive) hlook with
    hresolve | ⟨⟨name, hname, hlong⟩, hresolve⟩
  · exact Or.inl (find_names_of_resolve_error hresolve)
  · refine Or.inr ⟨fun hshort => hlong ?_, find_names_of_resolve_error hresolve⟩
    simp only [artifactsPath, List.mem_cons, List.not_mem_nil, or_false] at hname
    rcases hname with rfl | rfl
    · exact hshort
    · exact hartifacts

end Tidy

end Distill.Cache
