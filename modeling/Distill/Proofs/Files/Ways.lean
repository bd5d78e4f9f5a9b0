import Distill.Proofs.Files.Success
import Mathlib.Data.List.Sort

/-!
# Ways on which directories have been made

In a tree without links it is only the entries on the way to a path that decide what is read
there. A new directory on the way can be told from a missing one only by a name that is too
long for a file.

## Main definitions

* `FileTree.Plain` — a tree of files and directories without links.
* `FileTree.GrownAlong` — nothing but directories have been made on the way to a path.
* `FileTree.foundNames` — the names in a directory, none if it is missing.

## Main statements

* `FileTree.GrownAlong.read` — reading a file where directories may have been made.
* `FileTree.GrownAlong.filter_foundNames` — the names in a directory there.
-/

namespace Distill

namespace FileTree

variable {t u : FileTree} {directory here path rest q : List String} {name : String}

/-! ## Trees without links -/

/-- A tree of files and directories: no links, no names that are too long, and each name once in
its directory. -/
structure Plain (t : FileTree) : Prop where
  unlinked : ∀ q target, t.look q ≠ some (.link target)
  possible : t.Possible
  ordered : t.Ordered

theorem Plain.direct (ht : t.Plain) (path : List String) : t.Direct path :=
  fun q _ => ht.unlinked q

/-! ## What decides where a way leads -/

/-- The same stands on the way, so that it leads to the same place. -/
theorem walk_congr (hordinary : ∀ name ∈ rest, IsOrdinary name)
    (h : ∀ q, q <+: here ++ rest → u.look q = t.look q) : walk u here rest = walk t here rest := by
  induction rest generalizing here with
  | nil => rfl
  | cons name rest ih =>
      obtain ⟨hpoint, hpoints⟩ := hordinary name (by simp)
      have hassoc : here ++ name :: rest = here ++ [name] ++ rest := by simp
      rw [hassoc] at h
      have htail := ih (fun n hn => hordinary n (by simp [hn])) h
      have hlook := h (here ++ [name]) (List.prefix_append _ _)
      rw [look, look] at hlook
      rw [walk, walk, if_neg hpoint, if_neg hpoint, if_neg hpoints, if_neg hpoints, htail]
      cases ht : t.entry? (here ++ [name]) with
      | none =>
          rw [ht, Option.map_none, Option.map_eq_none_iff] at hlook
          rw [hlook]
      | some e =>
          rw [ht, Option.map_some, Option.map_eq_some_iff] at hlook
          obtain ⟨f, hf, hface⟩ := hlook
          rw [hf]
          cases e <;> cases f <;> simp only [Entry.face, reduceCtorEq, Entry.link.injEq] at hface
          · rfl
          · rw [hface]
          · rfl

theorem resolve_congr (hordinary : ∀ name ∈ path, IsOrdinary name) (hdirect : t.Direct path)
    (h : ∀ q, q <+: path → u.look q = t.look q) : u.resolve path = t.resolve path := by
  have hwalk : walk u [] path = walk t [] path := walk_congr hordinary h
  rw [resolve, resolve, resolveFrom, resolveFrom, hwalk]
  cases hpath : walk t [] path with
  | error e => rfl
  | ok s =>
      obtain ⟨rfl, -⟩ := walk_eq_ok hordinary hdirect hpath
      rfl

theorem read_of_resolve_error {e : FileError} (h : t.resolve path = .error e) :
    t.read path = .error e := by
  simp [read, h, bind, Except.bind]

theorem names_of_resolve_error {e : FileError} (h : t.resolve path = .error e) :
    t.names path = .error e := by
  simp [names, h, bind, Except.bind]

/-- What stands at the end of a way decides what is read. -/
theorem read_of_resolve_ok (h : t.resolve path = .ok path) :
    t.read path = match t.look path with
      | some (.file content) => .ok content
      | some (.directory _) => .error .isDirectory
      | some (.link _) | none => .error .notFound := by
  simp only [read, h, bind, Except.bind, look]
  cases t.entry? path with
  | none => rfl
  | some e => cases e <;> rfl

theorem read_congr (hordinary : ∀ name ∈ path, IsOrdinary name) (hdirect : t.Direct path)
    (h : ∀ q, q <+: path → u.look q = t.look q) : u.read path = t.read path := by
  have hresolve := resolve_congr hordinary hdirect h
  cases ht : t.resolve path with
  | error e => rw [read_of_resolve_error ht, read_of_resolve_error (hresolve.trans ht)]
  | ok there =>
      obtain ⟨rfl, -⟩ := resolve_eq_ok hordinary hdirect ht
      rw [read_of_resolve_ok ht, read_of_resolve_ok (hresolve.trans ht), h _ (List.prefix_refl _)]

/-- The first component decides if its name is too long. -/
theorem resolve_of_long (hordinary : IsOrdinary name) (hlong : ¬ IsShort name) :
    t.resolve (name :: rest) = .error .nameTooLong := by
  obtain ⟨hpoint, hpoints⟩ := hordinary
  rw [resolve, resolveFrom, walk, if_neg hpoint, if_neg hpoints, if_pos (Nat.not_le.mp hlong)]

/-- A way on which only directories stand, with names that are not too long, ends where the first
is missing. -/
theorem walk_of_missing (hordinary : ∀ name ∈ rest, IsOrdinary name)
    (hhere : t.look here = some (.directory [])) (hq : q <+: here ++ rest) (hclear : t.Clear q)
    (hnone : t.look q = none) (hshort : ∀ name ∈ q, IsShort name) :
    walk t here rest = .error .notFound := by
  induction rest generalizing here with
  | nil =>
      rw [List.append_nil] at hq
      simp [look_of_isPrefix hq hhere] at hnone
  | cons name rest ih =>
      obtain ⟨hpoint, hpoints⟩ := hordinary name (by simp)
      have hassoc : here ++ name :: rest = here ++ [name] ++ rest := by simp
      rw [hassoc] at hq
      -- What is missing is not above the directory that is there.
      have hbelow : here ++ [name] <+: q := by
        rcases List.prefix_or_prefix_of_prefix hq (List.prefix_append _ _) with hshorter | hlonger
        · rcases List.prefix_concat_iff.mp hshorter with rfl | hinside
          · exact List.prefix_refl _
          · simp [look_of_isPrefix hinside hhere] at hnone
        · exact hlonger
      have hname : IsShort name := hshort name (hbelow.subset (by simp))
      rw [walk, if_neg hpoint, if_neg hpoints, if_neg (Nat.not_lt.mpr hname)]
      rcases hclear _ hbelow with hmissing | hdir
      · rw [entry?_eq_none_iff.mpr hmissing]
      · have hthere := hasDirectory_iff.mpr hdir
        rw [hasDirectory] at hthere
        split at hthere
        · next es hes =>
          rw [hes]
          exact ih (fun n hn => hordinary n (by simp [hn])) hdir hq
        · simp at hthere

theorem resolve_of_missing (hordinary : ∀ name ∈ path, IsOrdinary name) (hq : q <+: path)
    (hclear : t.Clear q) (hnone : t.look q = none) (hshort : ∀ name ∈ q, IsShort name) :
    t.resolve path = .error .notFound := by
  have hwalk : walk t [] path = .error .notFound :=
    walk_of_missing hordinary rfl hq hclear hnone hshort
  rw [resolve, resolveFrom, hwalk]

/-! ## Names in a directory -/

/-- The names in a directory. One that is missing has none. -/
def foundNames (t : FileTree) (path : List String) : Except FileError (List String) :=
  match t.names path with
  | .error .notFound => .ok []
  | found => found

theorem foundNames_of_look (hordinary : ∀ name ∈ path, IsOrdinary name) (hpossible : t.Possible)
    (ht : t.Ordered) (hdir : t.look path = some (.directory [])) :
    ∃ names, t.foundNames path = .ok names ∧ names.Pairwise (· < ·) ∧
      ∀ name, name ∈ names ↔ t.look (path ++ [name]) ≠ none := by
  obtain ⟨names, hnames, hnamed⟩ := names_of_look hordinary hpossible ht hdir
  exact ⟨names, by rw [foundNames, hnames], hnamed⟩

/-- What is no directory has no names. -/
theorem names_of_resolve_ok (h : t.resolve path = .ok path)
    (hne : t.look path ≠ some (.directory [])) :
    t.names path = match t.look path with
      | some (.file _) => .error .notDirectory
      | _ => .error .notFound := by
  rw [look] at hne
  simp only [names, h, bind, Except.bind, look]
  cases ht : t.entry? path with
  | none => rfl
  | some e =>
      cases e with
      | directory es => simp [ht, Entry.face] at hne
      | file content => rfl
      | link target => rfl

/-- The names that are found differ, and they are those of what stands in the directory. -/
theorem mem_of_foundNames {names : List String} (ht : t.Plain)
    (hordinary : ∀ name ∈ path, IsOrdinary name) (h : t.foundNames path = .ok names) :
    names.Nodup ∧ ∀ name, name ∈ names ↔ t.look (path ++ [name]) ≠ none := by
  by_cases hdir : t.look path = some (.directory [])
  · obtain ⟨found, hfound, hsorted, hmem⟩ :=
      foundNames_of_look hordinary ht.possible ht.ordered hdir
    obtain rfl := Except.ok.inj (h.symm.trans hfound)
    exact ⟨hsorted.nodup, hmem⟩
  · have hempty : names = [] := by
      cases hpath : t.resolve path with
      | error e =>
          rw [foundNames, names_of_resolve_error hpath] at h
          cases e <;> simp_all
      | ok there =>
          obtain ⟨rfl, -⟩ := resolve_eq_ok hordinary (ht.direct path) hpath
          rw [foundNames, names_of_resolve_ok hpath hdir] at h
          cases hlook : t.look there with
          | none => simpa [hlook, eq_comm] using h
          | some e => cases e <;> simp_all
    subst hempty
    refine ⟨List.nodup_nil, fun name => iff_of_false List.not_mem_nil fun hthere => hdir ?_⟩
    obtain ⟨e, he⟩ := Option.ne_none_iff_exists'.mp hthere
    exact look_of_append he (by simp)

/-! ## Ways with new directories -/

/-- On the way to a path nothing has changed, but that directories have been made. -/
def GrownAlong (path : List String) (t u : FileTree) : Prop :=
  ∀ q, q <+: path → u.look q = t.look q ∨
    t.look q = none ∧ u.look q = some (.directory []) ∧ IsShort (q.getLastD "")

namespace GrownAlong

variable (h : GrownAlong path t u)
include h

/-- Above a new directory were directories, or nothing. -/
theorem clear_before (hq : q <+: path) (hdir : u.look q = some (.directory [])) : t.Clear q := by
  intro r hr
  rcases h r (hr.trans hq) with hsame | ⟨hnone, -⟩
  · exact Or.inr (hsame ▸ look_of_isPrefix hr hdir)
  · exact Or.inl hnone

/-- Around a new directory are only directories. -/
theorem clear_after (hq : q <+: path) (hnone : t.look q = none)
    (hdir : u.look q = some (.directory [])) : u.Clear path := by
  intro r hr
  rcases h r hr with hsame | ⟨-, hmade, -⟩
  · rcases List.prefix_or_prefix_of_prefix hr hq with habove | hbelow
    · exact Or.inr (look_of_isPrefix habove hdir)
    · exact Or.inl (hsame.trans (look_eq_none_of_isPrefix hbelow hnone))
  · exact Or.inr hmade

/-- Where a directory is new there was nothing to be found. -/
theorem resolve_eq_notFound (hordinary : ∀ name ∈ path, IsOrdinary name) (hu : u.Possible)
    (hq : q <+: path) (hnone : t.look q = none) (hdir : u.look q = some (.directory [])) :
    t.resolve path = .error .notFound :=
  resolve_of_missing hordinary hq (h.clear_before hq hdir) hnone (hu q (by simp [hdir]))

/-- **Reading a file where directories may have been made.** Only the name of the file itself can
make a difference: if that is too long, this is noticed once the directory is there. -/
theorem read (ht : t.Plain) (hu : u.Possible) (hordinary : ∀ name ∈ path, IsOrdinary name)
    (hpath : path = directory ++ [name]) (hshort : ∀ n ∈ directory, IsShort n)
    (hlook : u.look path = t.look path) :
    u.read path = t.read path ∨
      ¬ IsShort name ∧ t.look directory = none ∧ u.look directory = some (.directory []) ∧
        t.read path = .error .notFound ∧ u.read path = .error .nameTooLong := by
  have hdirectory : directory <+: path := hpath ▸ List.prefix_append _ _
  by_cases hsame : ∀ q, q <+: path → u.look q = t.look q
  · exact Or.inl (read_congr hordinary (ht.direct path) hsame)
  · push Not at hsame
    obtain ⟨q, hq, hne⟩ := hsame
    obtain ⟨hnone, hdir, -⟩ := (h q hq).resolve_left hne
    have hbefore := read_of_resolve_error (h.resolve_eq_notFound hordinary hu hq hnone hdir)
    have hinside : q <+: directory := by
      rw [hpath] at hq
      rcases List.prefix_concat_iff.mp hq with rfl | hinside
      · exact absurd (hpath ▸ hlook) hne
      · exact hinside
    have hgone : t.look directory = none := look_eq_none_of_isPrefix hinside hnone
    have hclear := h.clear_after hq hnone hdir
    have hmissing : u.look path = none := hlook.trans (look_eq_none_of_isPrefix hq hnone)
    rcases h directory hdirectory with hsame | ⟨-, hmade, -⟩
    · -- The directory is still missing.
      have hafter := resolve_of_missing hordinary hdirectory
        (fun r hr => hclear r (hr.trans hdirectory)) (hsame.trans hgone) hshort
      exact Or.inl ((read_of_resolve_error hafter).trans hbefore.symm)
    · -- It is there, so that the name of the file is looked at.
      by_cases hname : IsShort name
      · have hall : ∀ n ∈ path, IsShort n := by
          intro n hn
          rw [hpath, List.mem_append, List.mem_singleton] at hn
          rcases hn with hn | rfl
          · exact hshort n hn
          · exact hname
        have hafter := resolve_of_missing hordinary (List.prefix_refl _) hclear hmissing hall
        exact Or.inl ((read_of_resolve_error hafter).trans hbefore.symm)
      · rcases resolve_of_clear hordinary hclear hmissing with hafter | ⟨-, hafter⟩
        · exact Or.inl ((read_of_resolve_error hafter).trans hbefore.symm)
        · exact Or.inr ⟨hname, hgone, hmade, hbefore, read_of_resolve_error hafter⟩

/-- What was there is read as before. -/
theorem read_of_there (ht : t.Plain) (hordinary : ∀ n ∈ path ++ [name], IsOrdinary n)
    (hthere : t.look (path ++ [name]) ≠ none)
    (hlook : u.look (path ++ [name]) = t.look (path ++ [name])) :
    u.read (path ++ [name]) = t.read (path ++ [name]) := by
  refine read_congr hordinary (ht.direct _) fun q hq => ?_
  rcases List.prefix_concat_iff.mp hq with rfl | habove
  · exact hlook
  · rcases h q habove with hsame | ⟨hnone, -⟩
    · exact hsame
    · exact absurd (look_eq_none_of_isPrefix hq hnone) hthere

/-- **The names in a directory that may have been made.** They are the same but for those of files
that have come or gone. -/
theorem filter_foundNames (ht : t.Plain) (hu : u.Plain)
    (hordinary : ∀ name ∈ path, IsOrdinary name) (hshort : ∀ name ∈ path, IsShort name)
    (keep : String → Bool)
    (hkeep : ∀ name, keep name → u.look (path ++ [name]) = t.look (path ++ [name])) :
    (u.foundNames path).map (List.filter keep) = (t.foundNames path).map (List.filter keep) := by
  by_cases hsame : ∀ q, q <+: path → u.look q = t.look q
  · have hresolve := resolve_congr hordinary (ht.direct path) hsame
    cases hpath : t.resolve path with
    | error e =>
        rw [foundNames, foundNames, names_of_resolve_error hpath,
          names_of_resolve_error (hresolve.trans hpath)]
    | ok there =>
        obtain ⟨rfl, -⟩ := resolve_eq_ok hordinary (ht.direct path) hpath
        have hlook := hsame there (List.prefix_refl _)
        by_cases hdir : t.look there = some (.directory [])
        · obtain ⟨before, hbefore, hsorted, hmem⟩ :=
            foundNames_of_look hordinary ht.possible ht.ordered hdir
          obtain ⟨after, hafter, hsorted', hmem'⟩ :=
            foundNames_of_look hordinary hu.possible hu.ordered (hlook.trans hdir)
          rw [hbefore, hafter, Except.map, Except.map]
          refine congrArg _ ((hsorted'.filter _).eq_of_mem_iff (hsorted.filter _) fun name => ?_)
          rw [List.mem_filter, List.mem_filter, hmem, hmem']
          exact and_congr_left fun hname => by rw [hkeep name hname]
        · rw [foundNames, foundNames, names_of_resolve_ok hpath hdir,
            names_of_resolve_ok (hresolve.trans hpath) (hlook ▸ hdir), hlook]
  · push Not at hsame
    obtain ⟨q, hq, hne⟩ := hsame
    obtain ⟨hnone, hdir, -⟩ := (h q hq).resolve_left hne
    have hbefore : t.foundNames path = .ok [] := by
      rw [foundNames, names_of_resolve_error
        (h.resolve_eq_notFound hordinary hu.possible hq hnone hdir)]
    have hgone : t.look path = none := look_eq_none_of_isPrefix hq hnone
    rw [hbefore]
    rcases h path (List.prefix_refl _) with hlook | ⟨-, hmade, -⟩
    · have hafter := resolve_of_missing hordinary (List.prefix_refl _)
        (h.clear_after hq hnone hdir) (hlook.trans hgone) hshort
      rw [foundNames, names_of_resolve_error hafter]
    · obtain ⟨after, hafter, -, hmem⟩ :=
        foundNames_of_look hordinary hu.possible hu.ordered hmade
      have hempty : after.filter keep = [] := by
        rw [List.filter_eq_nil_iff]
        intro name hname hkept
        refine (hmem name).mp hname ((hkeep name hkept).trans ?_)
        exact look_eq_none_of_isPrefix (List.prefix_append path [name]) hgone
      rw [hafter, Except.map, hempty]
      rfl

end GrownAlong

end FileTree

end Distill
