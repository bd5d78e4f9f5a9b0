import Distill.Proofs.Cache.ArtifactFile
import Distill.Proofs.Cache.Directory
import Distill.Proofs.Cache.Listing
import Distill.Proofs.Files.Stopped

/-!
# Interrupted writes to a cache

Whatever is stored in a cache without links is stored completely or not at all, wherever the write
stops. All other entries are answered as before. Only one thing can be told: a name that is too long
for a file is not found as long as the directory above it is missing, and refused afterwards.

## Main definitions

* `Cache.Item`, `Cache.store` — what is stored in a cache.
* `Cache.Interrupted` — what a cache may be after a write that stopped anywhere.
* `Cache.Item.Kept`, `Cache.Item.Complete` — the old and the new entry.
* `Cache.Item.LeavesOthers` — the other entries.

## Main statements

* `Cache.interrupted_store` — a write that comes to its end is among them.
* `Cache.stored_completely_or_not_at_all` — nothing else is left by a write.
* `Cache.other_names_are_affected` — a long name and a link by which a write can be told.
-/

namespace Distill.Cache

open FileTree (GrownAlong IsOrdinary IsShort IsTemporary Staged)

/-! ## Items -/

/-- What is stored in a cache. -/
inductive Item where
  | artifact (archive : String) (a : Artifact)
  | conclusions (archive : String) (cs : List Conclusion)

namespace Item

/-- The directory of the file. -/
def directory : Item → List String
  | artifact archive _ => artifactsPath archive
  | conclusions archive _ => [encodeName archive]

/-- The name of the file. -/
def name : Item → String
  | artifact _ a => artifactName a.node
  | conclusions _ _ => conclusionsName

/-- The file. -/
def path (w : Item) : List String := w.directory ++ [w.name]

/-- The octets of the file. -/
def content : Item → Except Corruption Bytes
  | artifact _ a => encode a
  | conclusions _ cs => .ok (encodeConclusions cs)

theorem place (w : Item) : Place w.path (.file []) := by
  cases w with
  | artifact archive a => exact .artifact archive a.node []
  | conclusions archive cs => exact .conclusions archive []

theorem ne_name (w : Item) {temporary : String} (ht : IsTemporary temporary) :
    temporary ≠ w.name := by
  rintro rfl
  exact w.place.temporary_notMem ht (by simp [path])

end Item

/-- Store something in a cache. -/
def store (c : Cache) : Item → Except CacheError Unit × Cache
  | .artifact archive a => c.put archive a
  | .conclusions archive cs => c.putConclusions archive cs

/-- What a cache may be, when it is opened again, after a write that stopped anywhere. -/
inductive Interrupted (c : Cache) (w : Item) : Cache → Prop
  /-- There are no octets to be written, or the directory of the cache has not been made. -/
  | untouched : Interrupted c w c
  | stopped {data : Bytes} {temporary : String} {tree : FileTree} (content : w.content = .ok data)
      (name : IsTemporary temporary)
      (new : c.tree.look (w.directory ++ [temporary]) = none)
      (stopped : FileTree.Stopped w.directory w.name temporary data c.tree tree) :
      Interrupted c w (c.withTree tree)

/-- **A write that comes to its end,** whether it succeeds or not, is one that stops. -/
theorem interrupted_store (c : Cache) (w : Item) : c.Interrupted w (c.store w).2 := by
  have hwrite : ∀ data, w.content = .ok data →
      c.Interrupted w (c.writeFile w.directory w.name data).2 := fun data hdata =>
    .stopped hdata (FileTree.isTemporary_temporaryName _) (FileTree.look_temporaryName _ _)
      (FileTree.stopped_writeAtomic w.directory w.name data c.tree)
  cases w with
  | artifact archive a =>
      rw [store, put]
      cases hencode : encode a with
      | error e => exact .untouched
      | ok data => exact hwrite data hencode
  | conclusions archive cs => exact hwrite _ rfl

/-! ## What can be told of a write -/

/-- A cache answers for an archive as before. A name of an archive that is too long may not have
been noticed as long as the directory of the cache was not made; nothing was found then. -/
def Unchanged {α : Type} (c : Cache) (archive : String) (nothing : α)
    (before after : Except CacheError α) : Prop :=
  after = before ∨ c.root = none ∧ ¬ IsShort (encodeName archive) ∧
    before = .ok nothing ∧ after = .error (.io .nameTooLong)

namespace Item

/-- A cache answers for a node as another one did. In the archive of an artifact that was to be
stored, the name of a node that is too long may not have been noticed. -/
def AnswersAs (w : Item) (c c' : Cache) (archive node : String) : Prop :=
  c.Unchanged archive none (c.get archive node) (c'.get archive node) ∨
    w.directory = artifactsPath archive ∧ ¬ IsShort (artifactName node) ∧
      c.get archive node = .ok none ∧ c'.get archive node = .error (.io .nameTooLong)

/-- The entry is the old one. -/
def Kept (w : Item) (c c' : Cache) : Prop :=
  (∀ archive, c.Unchanged archive [] (c.list archive) (c'.list archive)) ∧
    match w with
    | artifact archive a => w.AnswersAs c c' archive a.node
    | conclusions archive _ =>
      c.Unchanged archive none (c.conclusions archive) (c'.conclusions archive)

/-- The entry is the new one: its file is complete, and answered as it is read. Numbers may be read
as others than they were printed; all else is what was to be stored. -/
def Complete (w : Item) (c c' : Cache) : Prop :=
  match w with
  | artifact archive a =>
    (∃ data, encode a = .ok data ∧ c'.fileOf archive a.node = some data) ∧
    (Readable a → c'.get archive a.node = .ok (some (reread a))) ∧
    (Storable a → c'.get archive a.node = .ok (some (stored a))) ∧
    ∀ names, c.list archive = .ok names → ∃ names' others, c'.list archive = .ok names' ∧
      names.Perm ((c.nodeAt (artifactPath archive a.node)).toList ++ others) ∧
      names'.Perm ((if a.isSuccess then [a.node] else []) ++ others)
  | conclusions archive cs =>
    c'.conclusionsOf archive = some (encodeConclusions cs) ∧
    ((∀ d ∈ cs, d.IsRead) → c'.conclusions archive = .ok (some (cs.map Conclusion.reread))) ∧
    ((∀ d ∈ cs, d.Proper ∧ d.toJson.NumbersReadBack) →
      c'.conclusions archive = .ok (some cs)) ∧
    ∀ archive, c.Unchanged archive [] (c.list archive) (c'.list archive)

/-- The other entries are what they were. -/
structure LeavesOthers (w : Item) (c c' : Cache) : Prop where
  artifact : ∀ archive node, artifactPath archive node ≠ w.path →
    w.AnswersAs c c' archive node
  conclusions : ∀ archive, conclusionsPath archive ≠ w.path →
    c.Unchanged archive none (c.conclusions archive) (c'.conclusions archive)
  list : ∀ archive, artifactsPath archive ≠ w.directory →
    c.Unchanged archive [] (c.list archive) (c'.list archive)
  /-- Without the entry of the item itself, lists are made of the same files. -/
  listing : ∀ archive, c.Unchanged archive []
    ((c.listing archive).map (List.filter (·.1 ≠ w.path)))
    ((c'.listing archive).map (List.filter (·.1 ≠ w.path)))

end Item

variable {c : Cache} {w : Item} {archive node temporary : String} {data : Bytes}
  {t u tree : FileTree} {path : List String} {e : Entry}

/-! ## The directory of the cache -/

theorem listing_made (hshort : IsShort (encodeName archive)) :
    c.made.listing archive = c.listing archive := by
  by_cases hroot : c.root = none
  · have hnames : FileTree.names [] (artifactsPath archive) = .error .notFound :=
      FileTree.names_of_resolve_error (resolve_empty hshort _)
    rw [listing, listing, foundNames, foundNames, find_made hnames, find_of_root_none hroot]
    rfl
  · rw [made_of_root hroot]

section Long

variable (hlong : ¬ IsShort (encodeName archive))
include hlong

/-- What is not noticed at first is noticed when the directory is made. -/
theorem unchanged_of_long {α : Type} {nothing : α} {before after : Except CacheError α}
    (hbefore : before = if c.root.isNone then .ok nothing else .error (.io .nameTooLong))
    (hafter : after = .error (.io .nameTooLong)) : c.Unchanged archive nothing before after := by
  by_cases hroot : c.root = none
  · rw [if_pos (by simpa using hroot)] at hbefore
    exact Or.inr ⟨hroot, hlong, hbefore, hafter⟩
  · rw [if_neg (by simpa using hroot)] at hbefore
    exact Or.inl (hafter.trans hbefore.symm)

theorem listing_of_long : c.listing archive =
    if c.root.isNone then .ok [] else .error (.io .nameTooLong) := by
  have hnames : ∀ t : FileTree, t.names (artifactsPath archive) = .error .nameTooLong :=
    fun t => FileTree.names_of_resolve_error (resolve_long hlong _ t)
  rw [listing, foundNames, find_of_long hnames]
  cases c.root <;> rfl

end Long

/-! ## Answers from files -/

theorem get_congr (h : u.read (artifactPath archive node) = t.read (artifactPath archive node)) :
    (c.withTree u).get archive node = (c.withTree t).get archive node := by
  rw [get, get, readFile?, readFile?, find_of_root (c.root_withTree u),
    find_of_root (c.root_withTree t), h]
  rfl

theorem conclusions_congr
    (h : u.read (conclusionsPath archive) = t.read (conclusionsPath archive)) :
    (c.withTree u).conclusions archive = (c.withTree t).conclusions archive := by
  rw [conclusions, conclusions, readFile?, readFile?, find_of_root (c.root_withTree u),
    find_of_root (c.root_withTree t), h]
  rfl

theorem get_of_read_error (c : Cache) {e : FileError}
    (h : t.read (artifactPath archive node) = .error e) :
    (c.withTree t).get archive node = if e = .notFound then .ok none else .error (.io e) := by
  rw [get, readFile?, find_of_root (c.root_withTree t), h]
  cases e <;> rfl

/-- What a cache has written itself is plain. -/
theorem Tidy.plain (hc : c.Tidy) : c.tree.Plain := by
  refine ⟨fun q target hlink => ?_, hc.possible, hc.ordered⟩
  rcases (hc.place q _ hlink).directory_or_file with hdir | ⟨b, hfile⟩
  · simp at hdir
  · simp at hfile

/-! ## Seen from other entries -/

section Staged

variable (hc : c.tree.Plain) (htree : tree.Plain) (ht : IsTemporary temporary)
  (h : Staged w.directory w.name temporary data c.tree tree)

include ht h in
/-- On the way to another place only directories have been made. -/
theorem grownAlong_of_place (hp : Place path e) (hne : path ≠ w.path) :
    GrownAlong path c.tree tree := by
  refine h.grownAlong (fun hbelow => ?_) fun hbelow => ?_
  · exact (hp.above hbelow (Ne.symm hne)).not_file w.place
  · exact hp.temporary_notMem ht (hbelow.subset (by simp))

include ht h in
/-- Another file is the same. -/
theorem look_of_place (hp : Place path (.file [])) (hne : path ≠ w.path) :
    tree.look path = c.tree.look path := by
  have htemporary : path ≠ w.directory ++ [temporary] := by
    rintro rfl
    exact hp.temporary_notMem ht (by simp)
  refine (h.others path htemporary hne).resolve_right ?_
  rintro ⟨habove, -⟩
  have hdirectory : Place path (.directory []) :=
    w.place.above (habove.trans (List.prefix_append _ _)) hne
  exact hdirectory.not_file hp

include hc htree h in
/-- An artifact that is the same is read as before. -/
theorem answersAs_of_grownAlong (hgrown : GrownAlong (artifactPath archive node) c.tree tree)
    (hlook : tree.look (artifactPath archive node) = c.tree.look (artifactPath archive node)) :
    w.AnswersAs c (c.withTree tree) archive node := by
  by_cases hshort : IsShort (encodeName archive)
  · have hall : ∀ name ∈ artifactsPath archive, IsShort name := by
      have hartifacts : IsShort "artifacts" := by decide
      simp [artifactsPath, hshort, hartifacts]
    have hmade := c.get_made hshort node
    rcases hgrown.read hc htree.possible isOrdinary_of_mem_artifactPath rfl hall hlook with
      hsame | ⟨hlong, hnone, hdir, hbefore, hafter⟩
    · exact Or.inl (Or.inl ((get_congr hsame).trans hmade))
    · have hmissing := (get_of_read_error c hbefore).trans (if_pos rfl)
      have hnoticed := (get_of_read_error c hafter).trans (if_neg (by decide))
      refine Or.inr ⟨?_, hlong, hmade.symm.trans hmissing, hnoticed⟩
      have habove := h.prefix_of_new hnone hdir
      cases w with
      | artifact other a => exact (habove.eq_of_length rfl).symm
      | conclusions other cs => simpa [artifactsPath, Item.directory] using habove.length_le
  · exact Or.inl (unchanged_of_long hshort (get_of_long hshort node)
      ((get_of_long hshort node).trans (if_neg (by simp))))

include hc htree in
/-- Conclusions that are the same are read as before. -/
theorem conclusions_of_grownAlong (hgrown : GrownAlong (conclusionsPath archive) c.tree tree)
    (hlook : tree.look (conclusionsPath archive) = c.tree.look (conclusionsPath archive)) :
    c.Unchanged archive none (c.conclusions archive) ((c.withTree tree).conclusions archive) := by
  have hname : IsShort conclusionsName := by decide
  have hpath : conclusionsPath archive = [encodeName archive] ++ [conclusionsName] := rfl
  by_cases hshort : IsShort (encodeName archive)
  · rcases hgrown.read hc htree.possible (Place.conclusions archive []).isOrdinary hpath
      (by simpa using hshort) hlook with hsame | ⟨hlong, -⟩
    · exact Or.inl ((conclusions_congr hsame).trans (conclusions_made hshort))
    · exact absurd hname hlong
  · exact unchanged_of_long hshort (conclusions_of_long hshort)
      ((conclusions_of_long hshort).trans (if_neg (by simp)))

/-- A temporary file is not taken for that of an artifact. -/
theorem isArtifactName_eq_false (ht : IsTemporary temporary) :
    isArtifactName temporary = false := by
  obtain ⟨rest, rfl, hpoint⟩ := ht
  have hend : (".tmp" ++ rest).endsWith fileEnding = false := by
    rw [← Bool.not_eq_true, String.endsWith_eq_endsWith_toSlice,
      String.Slice.endsWith_string_iff]
    intro hsuffix
    have hchars : fileEnding.toList <:+ '.' :: ("tmp".toList ++ rest.toList) := by
      simpa using hsuffix
    rcases List.suffix_cons_iff.mp hchars with heq | hinside
    · exact absurd (List.cons.inj (List.cons.inj heq).2).1 (by decide)
    · have hmem : '.' ∈ "tmp".toList ++ rest.toList := hinside.subset (by decide)
      rcases List.mem_append.mp hmem with hfirst | hrest
      · exact absurd hfirst (by decide)
      · exact hpoint hrest
  rw [isArtifactName, hend, Bool.false_and]

include ht h in
/-- The files of artifacts are the same but for the one that is to be stored. -/
theorem look_of_isArtifactName {name : String} (hname : isArtifactName name = true)
    (hkept : artifactsPath archive ++ [name] ≠ w.path ∨ tree.look w.path = c.tree.look w.path) :
    tree.look (artifactsPath archive ++ [name]) =
      c.tree.look (artifactsPath archive ++ [name]) := by
  by_cases hpath : artifactsPath archive ++ [name] = w.path
  · rw [hpath]
    exact hkept.resolve_left (absurd hpath)
  · have htemporary : artifactsPath archive ++ [name] ≠ w.directory ++ [temporary] := by
      intro heq
      obtain ⟨-, hlast⟩ := List.append_inj' heq rfl
      rw [(List.cons.inj hlast).1, isArtifactName_eq_false ht] at hname
      simp at hname
    refine (h.others _ htemporary hpath).resolve_right ?_
    rintro ⟨habove, -⟩
    have hlength := habove.length_le
    cases w <;> simp [Item.directory, artifactsPath] at hlength

include hc htree ht h in
/-- **The files of artifacts are listed as before,** but for the one that is to be stored. -/
theorem filter_listing_of_staged (keep : List String → Bool)
    (hkeep : keep w.path = true → tree.look w.path = c.tree.look w.path) (archive : String) :
    c.Unchanged archive [] ((c.listing archive).map (List.filter fun e => keep e.1))
      (((c.withTree tree).listing archive).map (List.filter fun e => keep e.1)) := by
  have hne : artifactsPath archive ≠ w.path := by
    intro heq
    exact (heq ▸ Place.artifacts archive).not_file w.place
  by_cases hshort : IsShort (encodeName archive)
  · rw [← listing_made hshort]
    refine Or.inl (filter_listing hc htree (grownAlong_of_place ht h (.artifacts archive) hne) keep
      fun name hname hkept => look_of_isArtifactName ht h hname ?_)
    by_cases hpath : artifactsPath archive ++ [name] = w.path
    · exact Or.inr (hkeep (hpath ▸ hkept))
    · exact Or.inl hpath
  · refine unchanged_of_long hshort ?_ ?_
    · rw [listing_of_long hshort]
      cases c.root <;> rfl
    · rw [listing_of_long hshort]
      rfl

include hc htree ht h in
/-- The list of another archive is as before, and any list is if the item is not stored. -/
theorem list_of_staged (hkept : artifactsPath archive ≠ w.directory ∨
    tree.look w.path = c.tree.look w.path) :
    c.Unchanged archive [] (c.list archive) ((c.withTree tree).list archive) := by
  have hne : artifactsPath archive ≠ w.path := by
    intro heq
    exact (heq ▸ Place.artifacts archive).not_file w.place
  have hall : ∀ r : Except CacheError (List (List String × Except CacheError (Option String))),
      r.map (List.filter fun _ => true) = r := by
    intro r
    cases r <;> simp [Except.map]
  rw [list_eq_listing, list_eq_listing]
  by_cases hshort : IsShort (encodeName archive)
  · have hsame := filter_listing hc htree (grownAlong_of_place ht h (.artifacts archive) hne)
      (c := c) (fun _ => true) fun name hname _ => look_of_isArtifactName ht h hname
        (hkept.imp_left fun hdirectory hpath => hdirectory (List.append_inj' hpath rfl).1)
    rw [hall, hall] at hsame
    rw [hsame]
    exact Or.inl (congrArg (Except.bind · listed) (listing_made hshort))
  · refine unchanged_of_long hshort ?_ ?_
    · rw [listing_of_long hshort]
      cases c.root with
      | none => simp [Except.bind, listed, pure, Except.pure, bind]
      | some t => rfl
    · rw [listing_of_long hshort]
      rfl

include hc htree ht h in
/-- **The other entries are what they were,** wherever the write has stopped. -/
theorem leavesOthers_of_staged : w.LeavesOthers c (c.withTree tree) := by
  refine ⟨fun archive node hne => ?_, fun archive hne => ?_, fun archive hne => ?_, ?_⟩
  · have hplace := Place.artifact archive node []
    exact answersAs_of_grownAlong hc htree h (grownAlong_of_place ht h hplace hne)
      (look_of_place ht h hplace hne)
  · have hplace := Place.conclusions archive []
    exact conclusions_of_grownAlong hc htree (grownAlong_of_place ht h hplace hne)
      (look_of_place ht h hplace hne)
  · exact list_of_staged hc htree ht h (Or.inl hne)
  · exact filter_listing_of_staged hc htree ht h (· ≠ w.path) fun hself =>
      absurd rfl (of_decide_eq_true hself)

include hc htree ht h in
/-- A write that has stopped before the file is moved to its place keeps the old entry. -/
theorem kept_of_staged (hsame : tree.look w.path = c.tree.look w.path) :
    w.Kept c (c.withTree tree) := by
  have hgrown := h.grownAlong_target hsame
  refine ⟨fun archive => list_of_staged hc htree ht h (Or.inr hsame), ?_⟩
  cases w with
  | artifact archive a => exact answersAs_of_grownAlong hc htree h hgrown hsame
  | conclusions archive cs => exact conclusions_of_grownAlong hc htree hgrown hsame

end Staged

/-! ## The item itself -/

/-- A list has the node of an artifact that is stored if that is a success. -/
theorem succeeded?_of_encode {a : Artifact} (hencode : encode a = .ok data)
    (hread : c.find (·.read path) = .ok data) :
    c.succeeded? path = .ok (if a.isSuccess then some a.node else none) := by
  obtain ⟨node, status, value⟩ := a
  rw [succeeded?, hread]
  cases status with
  | failed f =>
      rw [← Except.ok.inj hencode]
      simp only [readMarker_withMarker]
      rfl
  | succeeded =>
      cases value with
      | none => simp [encode] at hencode
      | some v =>
          rw [← Except.ok.inj hencode]
          simp only [readMarker_withMarker]
          rfl

section Complete

variable (hc : c.tree.Plain) (htree : tree.Plain) (ht : IsTemporary temporary)
  (h : Staged w.directory w.name temporary data c.tree tree)

include htree in
/-- A file that stands in its place is read, and its name is not too long. -/
theorem read_of_place (c : Cache) (hp : Place path (.file []))
    (hfile : tree.look path = some (.file data)) :
    (c.withTree tree).find (·.read path) = .ok data ∧ ∀ name ∈ path, IsShort name := by
  have hshort := htree.possible path (by simp [hfile])
  refine ⟨(find_of_root (c.root_withTree tree) _).trans ?_, hshort⟩
  exact (FileTree.read_eq_ok_iff hp.isOrdinary (htree.direct path)).mpr
    ⟨FileTree.fileAt_eq_some_iff.mpr hfile, hshort⟩

include hc htree in
/-- An artifact that is stored takes its place in the list. -/
theorem list_of_complete {a : Artifact} {names : List String} (hencode : encode a = .ok data)
    (hfile : tree.look (artifactPath archive a.node) = some (.file data))
    (hothers : ((c.withTree tree).listing archive).map
        (List.filter (·.1 ≠ artifactPath archive a.node)) =
      (c.listing archive).map (List.filter (·.1 ≠ artifactPath archive a.node)))
    (hlist : c.list archive = .ok names) :
    ∃ names' others, (c.withTree tree).list archive = .ok names' ∧
      names.Perm ((c.nodeAt (artifactPath archive a.node)).toList ++ others) ∧
      names'.Perm ((if a.isSuccess then [a.node] else []) ++ others) := by
  have hbind : c.listing archive >>= listed = .ok names :=
    (list_eq_listing c archive).symm.trans hlist
  obtain ⟨before, hbefore, hlisted⟩ := bind_eq_ok_iff.mp hbind
  obtain ⟨hread, -⟩ := listed_eq_ok_iff.mp hlisted
  rw [hbefore] at hothers
  obtain ⟨after, hafter, hsame⟩ := map_eq_ok_iff.mp hothers
  have hsucceeded : (c.withTree tree).succeeded? (artifactPath archive a.node) =
      .ok (if a.isSuccess then some a.node else none) :=
    succeeded?_of_encode hencode (read_of_place htree c (.artifact archive a.node []) hfile).1
  -- Every file is still read: the new one, and the others as before.
  have hall : ∀ e ∈ after, ∃ n, e.2 = .ok n := by
    intro e he
    by_cases hpath : e.1 = artifactPath archive a.node
    · obtain ⟨files, -, rfl⟩ := listing_eq_ok_iff.mp hafter
      obtain ⟨name, -, rfl⟩ := List.mem_map.mp he
      exact ⟨_, (congrArg (c.withTree tree).succeeded? hpath).trans hsucceeded⟩
    · have hother : e ∈ after.filter (·.1 ≠ artifactPath archive a.node) :=
        List.mem_filter.mpr ⟨he, by simpa using hpath⟩
      rw [hsame] at hother
      exact hread e (List.mem_of_mem_filter hother)
  have hlist' : (c.withTree tree).list archive =
      .ok ((nodesOf after).mergeSort fun a b => a ≤ b) := by
    rw [list_eq_listing, hafter]
    exact listed_eq_ok_iff.mpr ⟨hall, rfl⟩
  have hnode : ((c.withTree tree).nodeAt (artifactPath archive a.node)).toList =
      if a.isSuccess then [a.node] else [] := by
    rw [nodeAt, hsucceeded]
    cases a.isSuccess <;> rfl
  refine ⟨_, nodesOf (before.filter (·.1 ≠ artifactPath archive a.node)), hlist',
    perm_of_list hc hbefore hlist, ?_⟩
  rw [← hnode, ← hsame]
  exact perm_of_list htree hafter hlist'

include hc htree ht h in
/-- A write after which the file is in its place has made the new entry. -/
theorem complete_of_staged (hcontent : w.content = .ok data)
    (hfile : tree.look w.path = some (.file data)) : w.Complete c (c.withTree tree) := by
  cases w with
  | artifact archive a =>
      have hdata : encode a = .ok data := hcontent
      obtain ⟨hread, hshort⟩ := read_of_place htree c (.artifact archive a.node []) hfile
      have hothers := (leavesOthers_of_staged hc htree ht h).listing archive
      have harchive : IsShort (encodeName archive) := (isShort_artifactPath_iff.mp hshort).1
      have hget : ∀ {b : Artifact}, decode data = .ok b → b.node = a.node →
          (c.withTree tree).get archive a.node = .ok (some b) := by
        intro b hdecode hnode
        rw [get, readFile?]
        simp only [hread, bind, Except.bind, hdecode]
        simp [hnode, pure, Except.pure]
      refine ⟨⟨data, hdata, FileTree.fileAt_eq_some_iff.mpr hfile⟩, fun ha => ?_, fun ha => ?_,
        fun names => list_of_complete hc htree hdata hfile
          (hothers.resolve_right fun hlong => hlong.2.1 harchive)⟩
      · exact hget (decode_of_readable ha hdata) rfl
      · exact hget (decode_of_encode ha hdata) rfl
  | conclusions archive cs =>
      obtain rfl : encodeConclusions cs = data := Except.ok.inj hcontent
      obtain ⟨hread, -⟩ := read_of_place htree c (.conclusions archive []) hfile
      have hanswer : ∀ {ds}, decodeConclusions? (encodeConclusions cs) = some ds →
          (c.withTree tree).conclusions archive = .ok (some ds) := by
        intro ds hdecode
        rw [conclusions, readFile?]
        simp only [hread, bind, Except.bind, hdecode]
        rfl
      refine ⟨FileTree.fileAt_eq_some_iff.mpr hfile, fun hcs => ?_, fun hcs => ?_, fun other => ?_⟩
      · exact hanswer (decodeConclusions?_of_isRead hcs)
      · exact hanswer (decodeConclusions?_encodeConclusions (fun d hd => (hcs d hd).1)
          fun d hd => (hcs d hd).2)
      · exact list_of_staged hc htree ht h
          (Or.inl (by simp [artifactsPath, Item.directory]))

end Complete

/-- **What is stored in a cache is stored completely or not at all.** Wherever the write stops,
the entry of the item is afterwards the old or the new one, and the other entries are what they
were. -/
theorem stored_completely_or_not_at_all {c' : Cache} (hc : c.tree.Plain)
    (h : c.Interrupted w c') :
    c'.tree.Plain ∧ w.LeavesOthers c c' ∧ (w.Kept c c' ∨ w.Complete c c') := by
  cases h with
  | untouched =>
      refine ⟨hc, ⟨fun _ _ _ => Or.inl (Or.inl rfl), fun _ _ => Or.inl rfl,
        fun _ _ => Or.inl rfl, fun _ => Or.inl rfl⟩, Or.inl ⟨fun _ => Or.inl rfl, ?_⟩⟩
      cases w with
      | artifact archive a => exact Or.inl (Or.inl rfl)
      | conclusions archive cs => exact Or.inl rfl
  | @stopped data temporary tree hcontent ht hnew hstopped =>
      have htree : tree.Plain := hstopped.plain hc hnew (w.ne_name ht)
      have hstaged := hstopped.staged hnew (w.ne_name ht)
      refine ⟨htree, leavesOthers_of_staged hc htree ht hstaged, ?_⟩
      rcases hstaged.target with hsame | ⟨-, hfile⟩
      · exact Or.inl (kept_of_staged hc htree ht hstaged hsame)
      · exact Or.inr (complete_of_staged hc htree ht hstaged hcontent hfile)

/-! ## A log that is replaced -/

/-- The log of an earlier run. -/
def oldLog : Artifact := .succeeded "log" (.bytes [49])

/-- The failure that is to take its place. -/
def newLog : Artifact := .failed "log" ⟨.exec, "no log"⟩

/-- A cache with the log of an earlier run. -/
def logged : Cache := ((fresh "cache").put "sos" oldLog).2

/-- Nine octets of the failure are written when the write stops, and they stay. -/
def halfWritten : Cache :=
  logged.withTree (FileTree.perform ((FileTree.stagingSteps (artifactsPath "sos") ".tmpAb3x"
    (((encode newLog).toOption.getD []).take 9)).take 4) logged.tree).2

/-- The log is still that of the earlier run, and the list does not show what was left behind. -/
theorem halfWritten_stored_completely_or_not_at_all :
    logged.tree.Plain ∧ logged.Interrupted (.artifact "sos" newLog) halfWritten ∧
      halfWritten.tree.look (artifactsPath "sos" ++ [".tmpAb3x"]) ≠ none ∧
      halfWritten.get "sos" "log" = logged.get "sos" "log" ∧
      halfWritten.list "sos" = logged.list "sos" := by
  have hplain : logged.tree.Plain := ((tidy_fresh "cache").put "sos" oldLog).plain
  have hinterrupted : logged.Interrupted (.artifact "sos" newLog) halfWritten :=
    .stopped rfl ⟨"Ab3x", by decide, by decide⟩ (by decide +kernel) (.before 9 4)
  refine ⟨hplain, hinterrupted, by decide +kernel, ?_⟩
  obtain ⟨-, -, ⟨hlist, hget⟩ | ⟨⟨data, hdata, hfile⟩, -⟩⟩ :=
    stored_completely_or_not_at_all hplain hinterrupted
  · have hsame := hget.resolve_right fun hlong => hlong.2.1 (by decide)
    have harchive : IsShort (encodeName "sos") := by decide
    exact ⟨hsame.resolve_right fun hlong => hlong.2.1 harchive,
      (hlist "sos").resolve_right fun hlong => hlong.2.1 harchive⟩
  · have hold : halfWritten.fileOf "sos" "log" ≠ (encode newLog).toOption := by decide +kernel
    rw [hdata] at hold
    exact absurd hfile hold

/-- A name for which there can be no file. -/
def longName : String := String.ofList (List.replicate 300 'x')

/-- A cache in which the directory of one archive is a link to that of another. -/
def linkedLogs : Cache := (fresh "cache").withTree [("logs", .link "sos")]

/-- The same cache with a log for the archive that the link leads to. -/
def linkedLogged : Cache := (linkedLogs.store (.artifact "sos" oldLog)).2

/-- The way to a log follows the link. -/
theorem resolve_of_link (hlink : t.lookup "logs" = some (.link "sos")) :
    t.resolve (artifactPath "logs" "log") = t.resolveFrom 39 [] (artifactPath "sos" "log") := by
  have hsplit : "sos".splitOn "/" = ["sos"] := by
    rw [String.splitOn, if_neg (by decide)]
    -- None of the three characters ends a component.
    iterate 3 rw [String.splitOnAux, if_neg (by decide +kernel), if_neg (by decide +kernel)]
    rw [String.splitOnAux, if_pos (by decide +kernel)]
    decide +kernel
  have htarget : pathComponents "sos" = ["sos"] := by
    rw [pathComponents, hsplit]
    rfl
  have hrelative : "sos".startsWith "/" = false := by decide +kernel
  have hentry : t.entry? ([] ++ [encodeName "logs"]) = some (.link "sos") := hlink
  have hwalk : t.walk [] (artifactPath "logs" "log") =
      .ok (.link [] "sos" ["artifacts", artifactName "log"]) := by
    rw [artifactPath, artifactsPath, List.cons_append, FileTree.walk, if_neg (by decide),
      if_neg (by decide), if_neg (by decide), hentry]
    rfl
  rw [FileTree.resolve, FileTree.maxLinks, FileTree.resolveFrom, hwalk]
  simp only [hrelative, htarget]
  rfl

/-- The log is found under the name of the link as well. -/
theorem get_linkedLogs : linkedLogs.get "logs" "log" = .ok none ∧
    linkedLogged.get "logs" "log" = .ok (some oldLog) := by
  constructor
  · have hway : linkedLogs.tree.resolveFrom 39 [] (artifactPath "sos" "log") =
        .error .notFound := by decide +kernel
    have hread : linkedLogs.tree.read (artifactPath "logs" "log") = .error .notFound := by
      rw [FileTree.read, resolve_of_link rfl, hway]
      rfl
    exact (get_of_read_error _ hread).trans (if_pos rfl)
  · have hstorable : Storable oldLog := by
      rintro v ⟨rfl⟩
      exact ⟨trivial, by simp [ArtifactValue.NumbersReadBack, ArtifactValue.json?], by decide⟩
    obtain ⟨data, hdata⟩ : ∃ data, encode oldLog = .ok data := ⟨_, rfl⟩
    have hway : linkedLogged.tree.resolveFrom 39 [] (artifactPath "sos" "log") =
        .ok (artifactPath "sos" "log") := by decide +kernel
    have hfile : linkedLogged.tree.entry? (artifactPath "sos" "log") =
        (encode oldLog).toOption.map .file := rfl
    have hread : linkedLogged.tree.read (artifactPath "logs" "log") = .ok data := by
      rw [hdata] at hfile
      rw [FileTree.read, resolve_of_link rfl, hway]
      simp only [bind, Except.bind, hfile]
      rfl
    have hfind : linkedLogged.find (·.read (artifactPath "logs" "log")) = .ok data := hread
    rw [get, readFile?]
    simp only [hfind, bind, Except.bind, decode_of_encode hstorable hdata]
    rfl

/-- What is answered for other names may change. A long name of a node is not found in a fresh
cache and refused once another artifact of the archive is stored, and so is anything of an archive
with this name. What is stored for an archive is found under the name of a link to it. -/
theorem other_names_are_affected :
    ((fresh "cache").tree.Plain ∧ (fresh "cache").Interrupted (.artifact "sos" oldLog) logged ∧
      artifactPath "sos" longName ≠ (Item.artifact "sos" oldLog).path ∧
      (fresh "cache").get "sos" longName = .ok none ∧
      logged.get "sos" longName = .error (.io .nameTooLong) ∧
      (fresh "cache").get longName "log" = .ok none ∧
      logged.get longName "log" = .error (.io .nameTooLong)) ∧
    (linkedLogs.Interrupted (.artifact "sos" oldLog) linkedLogged ∧
      artifactPath "logs" "log" ≠ (Item.artifact "sos" oldLog).path ∧
      linkedLogs.get "logs" "log" = .ok none ∧
      linkedLogged.get "logs" "log" = .ok (some oldLog)) := by
  have hlong : ¬ IsShort (encodeName longName) := by decide +kernel
  have hlogged : logged = (fresh "cache").withTree logged.tree := rfl
  have hafter : logged.tree.read (artifactPath "sos" longName) = .error .nameTooLong := by
    decide +kernel
  refine ⟨⟨(tidy_fresh "cache").plain, interrupted_store _ _, by decide +kernel, rfl, ?_, rfl, ?_⟩,
    interrupted_store _ _, by decide +kernel, get_linkedLogs⟩
  · rw [hlogged]
    exact (get_of_read_error _ hafter).trans (if_neg (by decide))
  · exact (get_of_long hlong "log").trans (if_neg (by decide))

end Distill.Cache
