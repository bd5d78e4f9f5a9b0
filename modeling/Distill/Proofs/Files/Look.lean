import Distill.Files.Writing
import Mathlib.Data.List.Perm.Subperm

/-!
# Looking at trees of files

What stands at a path, without what is below it. Seen in this way, an operation on a tree
changes one path at a time.

## Main definitions

* `FileTree.look` — the file, the link or the directory at a path.

## Main statements

* `FileTree.look_put`, `FileTree.look_erase` — what an entry that is put or taken away
  changes.
-/

namespace Distill

/-- An entry without what is below it. -/
def Entry.face : Entry → Entry
  | directory _ => .directory []
  | e => e

namespace FileTree

variable {t : FileTree} {name : String} {rest dir path q : List String}

/-- What stands at a path. -/
def look (t : FileTree) (path : List String) : Option Entry := (t.entry? path).map Entry.face

@[simp] theorem look_nil (t : FileTree) : t.look [] = some (.directory []) := rfl

/-- Nothing stands below the root of an empty tree. -/
theorem look_empty (h : path ≠ []) : look [] path = none := by
  induction path with
  | nil => exact absurd rfl h
  | cons name rest ih =>
      cases rest with
      | nil => rfl
      | cons next rest =>
          have htail : look [] (name :: next :: rest) = look [] (next :: rest) := rfl
          rw [htail]
          exact ih (by simp)

/-- What stands at a path from an entry on. -/
def lookFrom (o : Option Entry) (rest : List String) : Option Entry :=
  match o with
  | some (.directory es) => look es rest
  | some e => if rest = [] then some e else none
  | none => none

/-- The way to a path goes through the entry of its first component. -/
theorem look_cons (t : FileTree) (name : String) (rest : List String) :
    t.look (name :: rest) = lookFrom (t.lookup name) rest := by
  cases rest with
  | nil =>
      rw [look, entry?]
      cases ht : t.lookup name with
      | none => rfl
      | some e => cases e <;> rfl
  | cons next rest =>
      have htail : t.look (name :: next :: rest) =
          look (entriesOf (t.lookup name)) (next :: rest) := rfl
      rw [htail]
      cases ht : t.lookup name with
      | none => exact look_empty (by simp)
      | some e =>
          cases e with
          | directory es => rfl
          | file b => exact look_empty (by simp)
          | link x => exact look_empty (by simp)

theorem lookFrom_nil (e : Entry) : lookFrom (some e) [] = some e.face := by
  cases e <;> rfl

/-- Nothing stands below an entry that is no directory, or an empty one. -/
theorem lookFrom_eq_none {o : Option Entry} (h : entriesOf o = []) (hrest : rest ≠ []) :
    lookFrom o rest = none := by
  cases o with
  | none => rfl
  | some e =>
      cases e with
      | directory es =>
          obtain rfl : es = [] := h
          exact look_empty hrest
      | file b => exact if_neg hrest
      | link x => exact if_neg hrest

theorem entriesOf_of_lookFrom {o : Option Entry} (h : lookFrom o [] ≠ some (.directory [])) :
    entriesOf o = [] := by
  cases o with
  | none => rfl
  | some e =>
      cases e with
      | directory es => exact absurd rfl h
      | file b => rfl
      | link x => rfl

/-- Something stands below a directory only. -/
theorem exists_directory_of_lookFrom {o : Option Entry} {e : Entry} (h : lookFrom o rest = some e)
    (hrest : rest ≠ [] ∨ e = .directory []) : ∃ es, o = some (.directory es) := by
  cases o with
  | none => simp [lookFrom] at h
  | some d =>
      cases d with
      | directory es => exact ⟨es, rfl⟩
      | file b | link x =>
          have hif : (if rest = [] then some _ else none) = some e := h
          split at hif
          · next hnil =>
            rcases hrest with hrest | rfl
            · exact absurd hnil hrest
            · simp at hif
          · simp at hif

theorem hasDirectory_iff : t.hasDirectory path = true ↔ t.look path = some (.directory []) := by
  rw [hasDirectory, look]
  cases t.entry? path with
  | none => simp
  | some e => cases e <;> simp [Entry.face]

theorem hasDirectory_eq_false_iff :
    t.hasDirectory path = false ↔ t.look path ≠ some (.directory []) := by
  rw [← Bool.not_eq_true, hasDirectory_iff]

theorem entry?_eq_file_iff {content : Bytes} :
    t.entry? path = some (.file content) ↔ t.look path = some (.file content) := by
  rw [look]
  cases t.entry? path with
  | none => simp
  | some e => cases e <;> simp [Entry.face]

theorem entry?_eq_none_iff : t.entry? path = none ↔ t.look path = none := by
  rw [look, Option.map_eq_none_iff]

/-- Whatever stands below a path, a directory stands at the path. -/
theorem look_of_append {e : Entry} (h : t.look (path ++ rest) = some e) (hrest : rest ≠ []) :
    t.look path = some (.directory []) := by
  induction path generalizing t with
  | nil => rfl
  | cons next path ih =>
      rw [List.cons_append, look_cons] at h
      obtain ⟨es, hes⟩ := exists_directory_of_lookFrom h (Or.inl (by simp [hrest]))
      rw [hes] at h
      rw [look_cons, hes]
      exact ih h

/-- Above a directory are directories. -/
theorem look_of_isPrefix (hq : q <+: path) (hdir : t.look path = some (.directory [])) :
    t.look q = some (.directory []) := by
  obtain ⟨after, rfl⟩ := hq
  by_cases hafter : after = []
  · rwa [hafter, List.append_nil] at hdir
  · exact look_of_append hdir hafter

/-- Below what is missing nothing stands. -/
theorem look_eq_none_of_isPrefix (hq : q <+: path) (hnone : t.look q = none) :
    t.look path = none := by
  obtain ⟨after, rfl⟩ := hq
  cases hlook : t.look (q ++ after) with
  | none => rfl
  | some e =>
      by_cases hafter : after = []
      · rw [hafter, List.append_nil] at hlook
        simp [hlook] at hnone
      · simp [look_of_append hlook hafter] at hnone

/-! ## Changes -/

theorem put_cons (h : rest ≠ []) (e : Entry) (t : FileTree) :
    put (name :: rest) e t =
      insertKey name (.directory (put rest e (entriesOf (t.lookup name)))) t := by
  cases rest with
  | nil => exact absurd rfl h
  | cons _ _ => rfl

theorem erase_cons (h : rest ≠ []) (t : FileTree) :
    erase (name :: rest) t =
      match t.lookup name with
      | some (.directory es) => insertKey name (.directory (erase rest es)) t
      | _ => t := by
  cases rest with
  | nil => exact absurd rfl h
  | cons _ _ => rfl

theorem lookup_filter_bne (t : FileTree) (name other : String) :
    List.lookup other (t.filter (·.1 != name)) = if other = name then none else t.lookup other := by
  induction t with
  | nil => simp
  | cons e rest ih => grind

/-- **An entry with nothing below it is put into a directory, in place of anything but a
directory.** -/
theorem look_put {e : Entry} (hdir : t.look dir = some (.directory []))
    (hfree : t.look (dir ++ [name]) ≠ some (.directory [])) (he : entriesOf (some e) = []) :
    look (put (dir ++ [name]) e t) q = if q = dir ++ [name] then some e.face else t.look q := by
  induction dir generalizing t q with
  | nil =>
      rw [List.nil_append, look_cons] at hfree
      rw [List.nil_append]
      cases q with
      | nil => rfl
      | cons next rest =>
          rw [put, look_cons, look_cons, lookup_insertKey]
          by_cases hname : next = name
          · subst hname
            rw [if_pos rfl]
            by_cases hrest : rest = []
            · rw [hrest, if_pos rfl, lookFrom_nil]
            · rw [if_neg (by simpa using hrest), lookFrom_eq_none he hrest,
                lookFrom_eq_none (entriesOf_of_lookFrom hfree) hrest]
          · rw [if_neg hname, if_neg (by simp [hname])]
  | cons above dir ih =>
      rw [List.cons_append, look_cons] at hfree
      rw [look_cons] at hdir
      obtain ⟨es, hes⟩ := exists_directory_of_lookFrom hdir (Or.inr rfl)
      rw [hes] at hdir hfree
      rw [List.cons_append, put_cons (by simp), hes]
      cases q with
      | nil => rfl
      | cons next rest =>
          rw [look_cons, look_cons, lookup_insertKey]
          by_cases hname : next = above
          · subst hname
            rw [if_pos rfl, hes]
            exact (ih hdir hfree).trans (by simp [lookFrom])
          · rw [if_neg hname, if_neg (by simp [hname])]

/-- **An entry is taken away with everything below it.** -/
theorem look_erase (t : FileTree) (dir : List String) (name : String) (q : List String) :
    look (erase (dir ++ [name]) t) q = if dir ++ [name] <+: q then none else t.look q := by
  induction dir generalizing t q with
  | nil =>
      rw [List.nil_append]
      cases q with
      | nil => simp
      | cons next rest =>
          rw [erase, look_cons, look_cons, lookup_filter_bne]
          by_cases hname : next = name
          · subst hname
            simp [lookFrom]
          · have hbelow : ¬ [name] <+: next :: rest := by
              simp [List.cons_prefix_cons, Ne.symm hname]
            rw [if_neg hname, if_neg hbelow]
  | cons above dir ih =>
      rw [List.cons_append, erase_cons (by simp)]
      cases q with
      | nil =>
          rw [if_neg (by simp)]
          split <;> rfl
      | cons next rest =>
          by_cases hname : next = above
          · subst hname
            have hbelow : next :: (dir ++ [name]) <+: next :: rest ↔ dir ++ [name] <+: rest := by
              simp [List.cons_prefix_cons]
            simp only [hbelow]
            rw [look_cons t]
            split
            · next es hes =>
              rw [look_cons, lookup_insertKey, if_pos rfl, hes]
              exact ih es rest
            · next hes =>
              rw [look_cons]
              split
              · next hbelow =>
                have hrest : rest ≠ [] := by
                  rintro rfl
                  simp at hbelow
                cases hlook : lookFrom (t.lookup next) rest with
                | none => rfl
                | some e =>
                    obtain ⟨es, ho⟩ := exists_directory_of_lookFrom hlook (Or.inl hrest)
                    exact absurd ho (hes es)
              · rfl
          · have hbelow : ¬ above :: (dir ++ [name]) <+: next :: rest := by
              simp [List.cons_prefix_cons, Ne.symm hname]
            rw [if_neg hbelow, look_cons t]
            split
            · rw [look_cons, lookup_insertKey, if_neg hname]
            · rw [look_cons]

/-- Anything but a directory is taken away alone. -/
theorem look_erase_of_ne (h : t.look (dir ++ [name]) ≠ some (.directory [])) :
    look (erase (dir ++ [name]) t) q = if q = dir ++ [name] then none else t.look q := by
  rw [look_erase]
  by_cases hq : q = dir ++ [name]
  · rw [if_pos hq, hq, if_pos (List.prefix_refl _)]
  · rw [if_neg hq]
    split
    · next hbelow =>
      obtain ⟨rest, rfl⟩ := hbelow
      cases hlook : t.look (dir ++ [name] ++ rest) with
      | none => rfl
      | some e => exact absurd (look_of_append hlook (by simpa using hq)) h
    · rfl

end FileTree

end Distill
