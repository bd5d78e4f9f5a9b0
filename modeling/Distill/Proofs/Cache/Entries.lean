import Distill.Proofs.Cache.Name
import Distill.Proofs.Files.Reading

/-!
# Entries of a cache

Which file a cache holds for a node or for the conclusions of an archive, and which value can be
taken from it. Every operation changes the files that it is about and no others.

## Main definitions

* `Cache.Direct` — no artifact of an archive is reached through a link.
* `Cache.fileOf`, `Cache.conclusionsOf` — the file of a node, and that of the conclusions.
* `Cache.success?` — the value that can be read for a node.

## Main statements

* `Cache.success?_eq` — the value is that in the file.
* `Cache.invalidate_cases`, `Cache.clear_cases` — what is taken away.
* `Cache.fileAt_put`, `Cache.fileAt_invalidate`, `Cache.fileAt_clear` — what the operations
  change.
-/

namespace Distill.Cache

open FileTree (IsOrdinary IsShort)

variable {c c' : Cache} {archive node other : String} {data : Bytes} {a : Artifact}

/-! ## The directory of a cache -/

/-- Either the directory is made, and what it holds is found, or nothing is found. -/
theorem find_cases {α : Type} (c : Cache) (look : FileTree → Except FileError α) :
    (c.root = some c.tree ∧ c.find look = look c.tree) ∨
      (c.root = none ∧ c.tree = [] ∧ c.find look = .error .notFound) := by
  rw [find, tree]
  cases c.root with
  | none => exact Or.inr ⟨rfl, rfl, rfl⟩
  | some t => exact Or.inl ⟨rfl, rfl⟩

theorem find_of_root {α : Type} {t : FileTree} (h : c.root = some t)
    (look : FileTree → Except FileError α) : c.find look = look t := by
  rw [find, h]
  rfl

theorem find_of_root_none {α : Type} (h : c.root = none)
    (look : FileTree → Except FileError α) : c.find look = .error .notFound := by
  rw [find, h]
  rfl

theorem tree_of_root_none (h : c.root = none) : c.tree = [] := by
  rw [tree, h]
  rfl

/-- Where anything is, the directory is made. -/
theorem root_of_look {path : List String} (hlook : c.tree.look path ≠ none) (hpath : path ≠ []) :
    c.root = some c.tree := by
  cases hroot : c.root with
  | none => exact absurd (tree_of_root_none hroot ▸ FileTree.look_empty hpath) hlook
  | some t => rw [tree, hroot, Option.getD_some]

theorem root_of_fileAt {path : List String} (hfile : c.tree.fileAt path = some data) :
    c.root = some c.tree := by
  have hlook := FileTree.fileAt_eq_some_iff.mp hfile
  have hthere : c.tree.look path ≠ none := by simp [hlook]
  refine root_of_look hthere ?_
  rintro rfl
  simp at hlook

/-- What is not resolved is not read. -/
theorem find_read_of_resolve_error {path : List String} {e : FileError}
    (h : c.find (·.resolve path) = .error e) : c.find (·.read path) = .error e := by
  rcases c.find_cases (·.resolve path) with ⟨hroot, hfind⟩ | ⟨hroot, -, hfind⟩
  · rw [find_of_root hroot, FileTree.read, ← hfind, h]
    rfl
  · obtain rfl := Except.error.inj (hfind.symm.trans h)
    exact find_of_root_none hroot _

theorem find_names_of_resolve_error {path : List String} {e : FileError}
    (h : c.find (·.resolve path) = .error e) : c.find (·.names path) = .error e := by
  rcases c.find_cases (·.resolve path) with ⟨hroot, hfind⟩ | ⟨hroot, -, hfind⟩
  · rw [find_of_root hroot, FileTree.names, ← hfind, h]
    rfl
  · obtain rfl := Except.error.inj (hfind.symm.trans h)
    exact find_of_root_none hroot _

/-- **A file is read where it stands.** -/
theorem find_read_eq_ok_iff {path : List String} (hordinary : ∀ name ∈ path, IsOrdinary name)
    (hdirect : c.tree.Direct path) (hpath : path ≠ []) :
    c.find (·.read path) = .ok data ↔
      c.tree.fileAt path = some data ∧ ∀ name ∈ path, IsShort name := by
  rcases c.find_cases (·.read path) with ⟨-, hfind⟩ | ⟨-, htree, hfind⟩
  · rw [hfind, FileTree.read_eq_ok_iff hordinary hdirect]
  · have hnone : c.tree.fileAt path = none := by
      rw [FileTree.fileAt, htree, FileTree.look_empty hpath]
      rfl
    simp [hfind, hnone]

/-- What a path names is what it leads to. -/
theorem find_locate {path : List String} (hordinary : ∀ name ∈ path, IsOrdinary name)
    (hdirect : c.tree.Direct path) (hpath : path ≠ []) :
    c.find (·.locate path) = c.find (·.resolve path) := by
  rcases c.find_cases (·.locate path) with ⟨hroot, hfind⟩ | ⟨hroot, -, hfind⟩
  · rw [hfind, find_of_root hroot, FileTree.locate_eq_resolve hordinary hdirect hpath]
  · rw [hfind, find_of_root_none hroot]

theorem find_resolve_eq_ok {path there : List String}
    (hordinary : ∀ name ∈ path, IsOrdinary name) (hdirect : c.tree.Direct path)
    (h : c.find (·.resolve path) = .ok there) : there = path := by
  rcases c.find_cases (·.resolve path) with ⟨-, hfind⟩ | ⟨-, -, hfind⟩
  · exact (FileTree.resolve_eq_ok hordinary hdirect (hfind ▸ h)).1
  · rw [hfind] at h
    simp at h

/-! ## Files -/

/-- No link stands on the way to an artifact of an archive. The operations of a cache make no
links. -/
def Direct (c : Cache) (archive : String) : Prop :=
  ∀ node, c.tree.Direct (artifactPath archive node)

/-- The file of a node. -/
def fileOf (c : Cache) (archive node : String) : Option Bytes :=
  c.tree.fileAt (artifactPath archive node)

/-- The file of the conclusions of an archive. -/
def conclusionsOf (c : Cache) (archive : String) : Option Bytes :=
  c.tree.fileAt (conclusionsPath archive)

/-- The names of an archive and a node are not too long for files. -/
def Fits (archive node : String) : Prop :=
  IsShort (encodeName archive) ∧ IsShort (artifactName node)

instance (archive node : String) : Decidable (Fits archive node) :=
  inferInstanceAs (Decidable (_ ≤ _ ∧ _ ≤ _))

theorem artifactPath_eq (archive node : String) :
    artifactPath archive node = [encodeName archive, "artifacts", artifactName node] := rfl

theorem artifactPath_inj {archive' : String} :
    artifactPath archive' other = artifactPath archive node ↔
      archive' = archive ∧ other = node := by
  rw [artifactPath_eq, artifactPath_eq]
  constructor
  · intro h
    simp only [List.cons.injEq, true_and, and_true] at h
    exact ⟨encodeName_injective h.1, artifactName_injective h.2⟩
  · rintro ⟨rfl, rfl⟩
    rfl

theorem conclusionsPath_eq (archive : String) :
    conclusionsPath archive = [encodeName archive, "conclusions.json"] := rfl

theorem conclusionsPath_inj : conclusionsPath other = conclusionsPath archive ↔
    other = archive := by
  rw [conclusionsPath_eq, conclusionsPath_eq]
  constructor
  · intro h
    exact encodeName_injective (List.cons.inj h).1
  · rintro rfl
    rfl

theorem conclusionsPath_ne_artifactPath :
    conclusionsPath other ≠ artifactPath archive node := by
  rw [conclusionsPath_eq, artifactPath_eq]
  simp

theorem isOrdinary_of_mem_artifactPath :
    ∀ name ∈ artifactPath archive node, IsOrdinary name := by
  intro name hname
  simp only [artifactPath_eq, List.mem_cons, List.not_mem_nil, or_false] at hname
  rcases hname with rfl | rfl | rfl
  · exact isOrdinary_encodeName archive
  · exact ⟨by decide, by decide⟩
  · exact isOrdinary_artifactName node

theorem isShort_artifactPath_iff :
    (∀ name ∈ artifactPath archive node, IsShort name) ↔ Fits archive node := by
  have hshort : IsShort "artifacts" := by decide
  simp [artifactPath_eq, Fits, hshort]

theorem isShort_conclusionsPath_iff :
    (∀ name ∈ conclusionsPath archive, IsShort name) ↔ IsShort (encodeName archive) := by
  have hshort : IsShort "conclusions.json" := by decide
  simp [conclusionsPath_eq, hshort]

theorem artifactPath_ne_nil : artifactPath archive node ≠ [] := by
  rw [artifactPath_eq]
  simp

theorem read_artifactPath_iff (hc : c.Direct archive) :
    c.find (·.read (artifactPath archive node)) = .ok data ↔
      c.fileOf archive node = some data ∧ Fits archive node := by
  rw [find_read_eq_ok_iff isOrdinary_of_mem_artifactPath (hc node) artifactPath_ne_nil,
    isShort_artifactPath_iff]
  rfl

/-- **An artifact is read from the file of its node.** -/
theorem get_eq_some (hc : c.Direct archive) (hfits : Fits archive node)
    (hfile : c.fileOf archive node = some data) (hdecode : decode data = .ok a)
    (hnode : a.node = node) : c.get archive node = .ok (some a) := by
  rw [get, readFile?, (read_artifactPath_iff hc).mpr ⟨hfile, hfits⟩]
  simp [bind, Except.bind, pure, Except.pure, hdecode, hnode]

/-- Without a directory of artifacts there is no file of a node. -/
theorem fileOf_of_missing (hlook : c.tree.look (artifactsPath archive) = none) (node : String) :
    c.fileOf archive node = none := by
  cases hfile : c.fileOf archive node with
  | none => rfl
  | some data =>
      have hthere : c.tree.look (artifactsPath archive ++ [artifactName node]) =
          some (.file data) := FileTree.fileAt_eq_some_iff.mp hfile
      rw [FileTree.look_of_append hthere (by simp)] at hlook
      simp at hlook

/-! ## Values -/

/-- The value that can be read for a node: that of a success of this node. -/
def success? (c : Cache) (archive node : String) : Option ArtifactValue :=
  match c.get archive node with
  | .ok (some ⟨_, .succeeded, v⟩) => v
  | _ => none

/-- The value in a file, if that is the file of a success of the node. -/
def valueIn (node : String) (data : Bytes) : Option ArtifactValue :=
  match decode data with
  | .ok a => if a.node = node then a.value? else none
  | .error _ => none

/-- **The value that can be read is that in the file of the node.** -/
theorem success?_eq (hc : c.Direct archive) (node : String) :
    c.success? archive node =
      if Fits archive node then (c.fileOf archive node).bind (valueIn node) else none := by
  have hread : c.success? archive node =
      match c.find (·.read (artifactPath archive node)) with
      | .ok data => valueIn node data
      | .error _ => none := by
    rw [success?, get, readFile?]
    cases c.find (·.read (artifactPath archive node)) with
    | error e => cases e <;> rfl
    | ok data =>
        simp only [bind, Except.bind]
        rw [valueIn]
        cases hdecode : decode data with
        | error e => rfl
        | ok a =>
            obtain ⟨name, status, value⟩ := a
            by_cases hname : name = node
            · cases status <;>
                simp [hname, Artifact.value?, pure, Except.pure]
            · simp [hname, throw, throwThe, MonadExceptOf.throw]
  rw [hread]
  cases h : c.find (·.read (artifactPath archive node)) with
  | ok data =>
      obtain ⟨hfile, hfits⟩ := (read_artifactPath_iff hc).mp h
      rw [if_pos hfits, hfile]
      rfl
  | error e =>
      by_cases hfits : Fits archive node
      · rw [if_pos hfits]
        cases hfile : c.fileOf archive node with
        | none => rfl
        | some data =>
            rw [(read_artifactPath_iff hc).mpr ⟨hfile, hfits⟩] at h
            simp at h
      · rw [if_neg hfits]

theorem success?_congr (hc : c.Direct archive) (hc' : c'.Direct archive)
    (h : c'.fileOf archive node = c.fileOf archive node) :
    c'.success? archive node = c.success? archive node := by
  rw [success?_eq hc, success?_eq hc', h]

/-! ## Fresh caches -/

/-- A cache whose directory is not made. -/
def fresh (location : String) : Cache := { location }

@[simp] theorem tree_fresh (location : String) : (fresh location).tree = [] := rfl

theorem direct_fresh (location archive : String) : (fresh location).Direct archive := by
  intro node q _ target hlink
  by_cases hq : q = []
  · subst hq
    simp at hlink
  · rw [tree_fresh, FileTree.look_empty hq] at hlink
    simp at hlink

@[simp] theorem success?_fresh (location archive node : String) :
    (fresh location).success? archive node = none := by
  have hfile : (fresh location).fileOf archive node = none := by
    rw [fileOf, FileTree.fileAt, tree_fresh, FileTree.look_empty artifactPath_ne_nil]
    rfl
  rw [success?_eq (direct_fresh location archive), hfile]
  simp

/-! ## Operations -/

/-- No link is made. -/
theorem Direct.of_look (hc : c.Direct archive)
    (h : ∀ q target, c'.tree.look q = some (.link target) → c.tree.look q = some (.link target)) :
    c'.Direct archive :=
  fun node q hq target hlink => hc node q hq target (h q target hlink)

theorem fileAt_writeFile (c : Cache) (directory : List String) (name : String) (content : Bytes)
    (path : List String) :
    (c.writeFile directory name content).2.tree.fileAt path =
      if (c.writeFile directory name content).1 = .ok () ∧ path = directory ++ [name]
        then some content else c.tree.fileAt path := by
  have hok : (c.writeFile directory name content).1 = .ok () ↔
      (c.tree.writeAtomic directory name content).1 = none := by
    rw [writeFile]
    generalize c.tree.writeAtomic directory name content = written
    obtain ⟨failure, tree⟩ := written
    cases failure <;> simp
  simp only [hok]
  exact FileTree.fileAt_writeAtomic directory name content c.tree path

theorem direct_writeFile (hc : c.Direct archive) (directory : List String) (name : String)
    (content : Bytes) : (c.writeFile directory name content).2.Direct archive :=
  hc.of_look fun _ _ h => FileTree.look_link_of_writeAtomic h

/-- **An artifact that is stored is the file of its node; every other file stays.** -/
theorem fileAt_put (c : Cache) (archive : String) (a : Artifact) (path : List String) :
    (c.put archive a).2.tree.fileAt path =
      if (c.put archive a).1 = .ok () ∧ path = artifactPath archive a.node
        then (encode a).toOption else c.tree.fileAt path := by
  rw [put]
  cases hencode : encode a with
  | error e => simp
  | ok data => exact fileAt_writeFile c (artifactsPath archive) (artifactName a.node) data path

theorem fileOf_put (c : Cache) (archive : String) (a : Artifact) (archive' node : String) :
    (c.put archive a).2.fileOf archive' node =
      if (c.put archive a).1 = .ok () ∧ archive' = archive ∧ node = a.node
        then (encode a).toOption else c.fileOf archive' node := by
  rw [fileOf, fileAt_put]
  simp only [artifactPath_inj]
  rfl

theorem conclusionsOf_put (c : Cache) (archive : String) (a : Artifact) (other : String) :
    (c.put archive a).2.conclusionsOf other = c.conclusionsOf other := by
  rw [conclusionsOf, fileAt_put, if_neg fun h => conclusionsPath_ne_artifactPath h.2]
  rfl

theorem direct_put (hc : c.Direct archive) (archive' : String) (a : Artifact) :
    (c.put archive' a).2.Direct archive := by
  rw [put]
  cases encode a with
  | error e => exact hc
  | ok data => exact direct_writeFile hc _ _ _

/-- **Conclusions are no artifacts.** -/
theorem fileOf_putConclusions (c : Cache) (archive : String) (cs : List Conclusion)
    (archive' node : String) :
    (c.putConclusions archive cs).2.fileOf archive' node = c.fileOf archive' node := by
  rw [fileOf, putConclusions, fileAt_writeFile, if_neg]
  · rfl
  · exact fun h => conclusionsPath_ne_artifactPath h.2.symm

/-- **Conclusions that are stored are the file of their archive.** -/
theorem conclusionsOf_putConclusions (c : Cache) (archive : String) (cs : List Conclusion)
    (other : String) :
    (c.putConclusions archive cs).2.conclusionsOf other =
      if (c.putConclusions archive cs).1 = .ok () ∧ other = archive
        then some (encodeConclusions cs) else c.conclusionsOf other := by
  have hpath : conclusionsPath other = [encodeName archive] ++ [conclusionsName] ↔
      other = archive := conclusionsPath_inj
  rw [conclusionsOf, putConclusions, fileAt_writeFile]
  simp only [hpath]
  rfl

theorem direct_putConclusions (hc : c.Direct archive) (archive' : String) (cs : List Conclusion) :
    (c.putConclusions archive' cs).2.Direct archive :=
  direct_writeFile hc _ _ _

/-- **What it is to drop an artifact:** its file is taken away, or nothing is. -/
theorem invalidate_cases (hc : c.Direct archive) (node : String) :
    (∃ r, r ≠ .ok true ∧ c.invalidate archive node = (r, c)) ∨
      (c.tree.look (artifactPath archive node) ≠ some (.directory []) ∧
        c.invalidate archive node =
          (.ok true, c.withTree (c.tree.erase (artifactPath archive node)))) := by
  rw [invalidate, find_locate isOrdinary_of_mem_artifactPath (hc node) artifactPath_ne_nil]
  cases hresolve : c.find (·.resolve (artifactPath archive node)) with
  | error e => exact Or.inl (by cases e <;> exact ⟨_, by simp, rfl⟩)
  | ok found =>
      obtain rfl := find_resolve_eq_ok isOrdinary_of_mem_artifactPath (hc node) hresolve
      simp only
      split
      · exact Or.inl ⟨_, by simp, rfl⟩
      · next hdir => exact Or.inr ⟨fun h => hdir (FileTree.hasDirectory_iff.mpr h), rfl⟩

/-- **Only the file of the node is taken away.** -/
theorem fileAt_invalidate (hc : c.Direct archive) (node : String) (path : List String) :
    (c.invalidate archive node).2.tree.fileAt path =
      if (c.invalidate archive node).1 = .ok true ∧ path = artifactPath archive node
        then none else c.tree.fileAt path := by
  rcases invalidate_cases hc node with ⟨r, hr, h⟩ | ⟨hfree, h⟩
  · rw [h, if_neg fun hok => hr hok.1]
  · rw [h]
    simp only [true_and]
    exact FileTree.fileAt_erase_of_ne hfree

theorem fileOf_invalidate (hc : c.Direct archive) (node archive' other : String) :
    (c.invalidate archive node).2.fileOf archive' other =
      if (c.invalidate archive node).1 = .ok true ∧ archive' = archive ∧ other = node
        then none else c.fileOf archive' other := by
  rw [fileOf, fileAt_invalidate hc]
  simp only [artifactPath_inj]
  rfl

theorem conclusionsOf_invalidate (hc : c.Direct archive) (node other : String) :
    (c.invalidate archive node).2.conclusionsOf other = c.conclusionsOf other := by
  rw [conclusionsOf, fileAt_invalidate hc, if_neg fun h => conclusionsPath_ne_artifactPath h.2]
  rfl

theorem direct_invalidate (hc : c.Direct archive) (node : String) :
    (c.invalidate archive node).2.Direct archive := by
  rcases invalidate_cases hc node with ⟨r, -, h⟩ | ⟨-, h⟩
  · rw [h]
    exact hc
  · rw [h]
    refine hc.of_look fun q target hlink => ?_
    have hlook : (c.tree.erase (artifactsPath archive ++ [artifactName node])).look q =
        some (.link target) := hlink
    exact FileTree.look_link_of_erase c.tree hlook

/-- The directory of an archive holds the files of this archive, and those of no other. -/
theorem archive_isPrefix_iff {archive' : String} {rest : List String} :
    [encodeName archive] <+: encodeName archive' :: rest ↔ archive' = archive := by
  rw [List.cons_prefix_cons]
  constructor
  · rintro ⟨h, -⟩
    exact (encodeName_injective h).symm
  · rintro rfl
    exact ⟨rfl, List.nil_prefix⟩

theorem direct_archive (hc : c.Direct archive) : c.tree.Direct [encodeName archive] :=
  fun q hq => hc "" q (hq.trans (archive_isPrefix_iff.mpr rfl))

theorem isOrdinary_of_mem_archive : ∀ name ∈ [encodeName archive], IsOrdinary name := by
  simpa using isOrdinary_encodeName archive

/-- An archive without a directory has no files. -/
theorem fileAt_of_notFound (h : c.find (·.resolve [encodeName archive]) = .error .notFound)
    {rest : List String} (hrest : rest ≠ []) :
    c.tree.fileAt (encodeName archive :: rest) = none := by
  cases hfile : c.tree.fileAt (encodeName archive :: rest) with
  | none => rfl
  | some data =>
      have hlook : c.tree.look ([encodeName archive] ++ rest) = some (.file data) :=
        FileTree.fileAt_eq_some_iff.mp hfile
      have hdir := FileTree.look_of_append hlook hrest
      have hthere : c.tree.look [encodeName archive] ≠ none := by simp [hdir]
      rw [find_of_root (root_of_look hthere (by simp))] at h
      by_cases hshort : IsShort (encodeName archive)
      · rw [FileTree.resolve_of_look isOrdinary_of_mem_archive (by simpa using hshort) hdir
          (by simp)] at h
        simp at h
      · obtain ⟨hpoint, hpoints⟩ := isOrdinary_encodeName archive
        have hlong := Nat.not_le.mp hshort
        rw [FileTree.resolve, FileTree.resolveFrom, FileTree.walk, if_neg hpoint, if_neg hpoints,
          if_pos hlong] at h
        simp at h

/-- **What it is to drop an archive:** its directory is taken away, or nothing is. -/
theorem clear_cases (hc : c.Direct archive) :
    ((∀ rest, rest ≠ [] → c.tree.fileAt (encodeName archive :: rest) = none) ∧
        c.clear archive = (.ok (), c)) ∨
      (∃ e, c.clear archive = (.error e, c)) ∨
      c.clear archive = (.ok (), c.withTree (c.tree.erase [encodeName archive])) := by
  rw [clear, find_locate isOrdinary_of_mem_archive (direct_archive hc) (by simp)]
  cases hresolve : c.find (·.resolve [encodeName archive]) with
  | error e =>
      by_cases hnone : e = .notFound
      · subst hnone
        exact Or.inl ⟨fun rest hrest => fileAt_of_notFound hresolve hrest, rfl⟩
      · exact Or.inr (Or.inl (by cases e <;> first | exact absurd rfl hnone | exact ⟨_, rfl⟩))
  | ok path =>
      obtain rfl := find_resolve_eq_ok isOrdinary_of_mem_archive (direct_archive hc) hresolve
      simp only
      split
      · exact Or.inr (Or.inl ⟨_, rfl⟩)
      · exact Or.inr (Or.inr rfl)

/-- **Only files of the archive are taken away.** -/
theorem fileAt_clear (hc : c.Direct archive) (archive' : String) {rest : List String}
    (hrest : rest ≠ []) :
    (c.clear archive).2.tree.fileAt (encodeName archive' :: rest) =
      if (c.clear archive).1 = .ok () ∧ archive' = archive then none
        else c.tree.fileAt (encodeName archive' :: rest) := by
  rcases clear_cases hc with ⟨hnone, h⟩ | ⟨e, h⟩ | h
  · rw [h]
    by_cases heq : archive' = archive
    · rw [if_pos ⟨rfl, heq⟩, heq]
      exact hnone rest hrest
    · rw [if_neg fun hboth => heq hboth.2]
  · simp [h]
  · have hfile := FileTree.fileAt_erase c.tree [] (encodeName archive)
      (encodeName archive' :: rest)
    simp only [List.nil_append, archive_isPrefix_iff] at hfile
    rw [h]
    simp only [true_and]
    exact hfile

theorem fileOf_clear (hc : c.Direct archive) (archive' other : String) :
    (c.clear archive).2.fileOf archive' other =
      if (c.clear archive).1 = .ok () ∧ archive' = archive then none
        else c.fileOf archive' other :=
  fileAt_clear hc archive' (by simp)

theorem conclusionsOf_clear (hc : c.Direct archive) (other : String) :
    (c.clear archive).2.conclusionsOf other =
      if (c.clear archive).1 = .ok () ∧ other = archive then none else c.conclusionsOf other :=
  fileAt_clear hc other (by simp)

theorem direct_clear (hc : c.Direct archive) : (c.clear archive).2.Direct archive := by
  rcases clear_cases hc with ⟨-, h⟩ | ⟨e, h⟩ | h
  · rw [h]
    exact hc
  · rw [h]
    exact hc
  · rw [h]
    refine hc.of_look fun q target hlink => ?_
    have hlook : (c.tree.erase ([] ++ [encodeName archive])).look q = some (.link target) := hlink
    exact FileTree.look_link_of_erase c.tree hlook

/-! ## Regular caches -/

/-- What is on the way to the artifacts of an archive is as a system of files has it: no links,
and no names that are too long. -/
structure Regular (c : Cache) (archive : String) : Prop where
  direct : c.Direct archive
  short : ∀ node q, q <+: artifactPath archive node → c.tree.look q ≠ none →
    IsShort (q.getLastD "")

theorem regular_fresh (location archive : String) : (fresh location).Regular archive := by
  refine ⟨direct_fresh location archive, fun node q _ hlook => ?_⟩
  by_cases hq : q = []
  · subst hq
    exact Nat.zero_le _
  · exact absurd (tree_fresh location ▸ FileTree.look_empty hq) hlook

theorem Regular.writeFile (hc : c.Regular archive) (directory : List String) (name : String)
    (content : Bytes) : (c.writeFile directory name content).2.Regular archive := by
  refine ⟨direct_writeFile hc.direct _ _ _, fun node q hq hlook => ?_⟩
  cases hnew : c.tree.look q with
  | some e => exact hc.short node q hq (by simp [hnew])
  | none => exact FileTree.isShort_of_writeAtomic hlook hnew

theorem Regular.put (hc : c.Regular archive) (archive' : String) (a : Artifact) :
    (c.put archive' a).2.Regular archive := by
  rw [Cache.put]
  cases encode a with
  | error e => exact hc
  | ok data => exact hc.writeFile _ _ _

theorem Regular.putConclusions (hc : c.Regular archive) (archive' : String)
    (cs : List Conclusion) : (c.putConclusions archive' cs).2.Regular archive :=
  hc.writeFile _ _ _

/-- A file that is there can be read. -/
theorem Regular.fits_of_fileOf (hc : c.Regular archive) (h : c.fileOf archive node = some data) :
    Fits archive node := by
  have hlook : c.tree.look (artifactPath archive node) = some (.file data) :=
    FileTree.fileAt_eq_some_iff.mp h
  have hdir : c.tree.look [encodeName archive] = some (.directory []) := by
    rw [artifactPath_eq, ← List.singleton_append] at hlook
    exact FileTree.look_of_append hlook (by simp)
  have harchive := hc.short node [encodeName archive] (archive_isPrefix_iff.mpr rfl)
    (by simp [hdir])
  have hnode := hc.short node _ (List.prefix_refl _) (by simp [hlook])
  exact ⟨harchive, hnode⟩

end Distill.Cache
