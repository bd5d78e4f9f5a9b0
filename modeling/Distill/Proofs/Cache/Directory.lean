import Distill.Proofs.Cache.Entries
import Distill.Proofs.Files.Ways

/-!
# The directory of a cache

The directory in which a cache keeps its files is made by the first write. As long as it is not
made nothing is found, whatever the names are. Afterwards a name of an archive that is too long for
a directory is refused; nothing else can be told.

## Main definitions

* `Cache.made` — a cache when its directory is made.

## Main statements

* `Cache.get_made`, `Cache.conclusions_made` — the answers are the same when it is made.
* `Cache.get_of_long`, `Cache.conclusions_of_long` — but for names that are too long.
-/

namespace Distill.Cache

open FileTree (IsShort)

variable {c : Cache} {archive : String}

/-! ## Making the directory -/

/-- A cache when its directory is made, if it is not. -/
def made (c : Cache) : Cache := c.withTree c.tree

theorem made_of_root (h : c.root ≠ none) : c.made = c := by
  obtain ⟨location, root⟩ := c
  cases root with
  | none => simp at h
  | some t => rfl

/-- **To make the directory makes no difference to a way that it does not bar.** -/
theorem find_made {α : Type} {look : FileTree → Except FileError α}
    (h : look [] = .error .notFound) : c.made.find look = c.find look := by
  by_cases hroot : c.root = none
  · rw [find_of_root_none hroot, ← h, ← tree_of_root_none hroot]
    exact find_of_root (root_withTree _ _) look
  · rw [made_of_root hroot]

/-- Nothing is found in an empty directory. -/
theorem resolve_empty (hshort : IsShort (encodeName archive)) (rest : List String) :
    FileTree.resolve [] (encodeName archive :: rest) = .error .notFound := by
  obtain ⟨hpoint, hpoints⟩ := isOrdinary_encodeName archive
  have hentry : FileTree.entry? ([] ++ [encodeName archive]) [] = none := rfl
  rw [FileTree.resolve, FileTree.resolveFrom, FileTree.walk, if_neg hpoint, if_neg hpoints,
    if_neg (Nat.not_lt.mpr hshort), hentry]

theorem get_made (hshort : IsShort (encodeName archive)) (node : String) :
    c.made.get archive node = c.get archive node := by
  have hread : FileTree.read [] (artifactPath archive node) = .error .notFound :=
    FileTree.read_of_resolve_error (resolve_empty hshort _)
  rw [get, get, readFile?, readFile?, find_made hread]
  rfl

theorem conclusions_made (hshort : IsShort (encodeName archive)) :
    c.made.conclusions archive = c.conclusions archive := by
  have hread : FileTree.read [] (conclusionsPath archive) = .error .notFound :=
    FileTree.read_of_resolve_error (resolve_empty hshort _)
  rw [conclusions, conclusions, readFile?, readFile?, find_made hread]
  rfl

/-! ## Names that are too long -/

/-- A way that begins with a name that is too long. -/
theorem find_of_long {α : Type} {look : FileTree → Except FileError α}
    (h : ∀ t, look t = .error .nameTooLong) :
    c.find look = if c.root.isNone then .error .notFound else .error .nameTooLong := by
  rw [find]
  cases c.root with
  | none => rfl
  | some t => exact h t

section Long

variable (hlong : ¬ IsShort (encodeName archive))
include hlong

theorem resolve_long (rest : List String) (t : FileTree) :
    t.resolve (encodeName archive :: rest) = .error .nameTooLong :=
  FileTree.resolve_of_long (isOrdinary_encodeName archive) hlong

theorem get_of_long (node : String) : c.get archive node =
    if c.root.isNone then .ok none else .error (.io .nameTooLong) := by
  have hread : ∀ t : FileTree, t.read (artifactPath archive node) = .error .nameTooLong :=
    fun t => FileTree.read_of_resolve_error (resolve_long hlong _ t)
  rw [get, readFile?, find_of_long hread]
  cases c.root <;> rfl

theorem conclusions_of_long : c.conclusions archive =
    if c.root.isNone then .ok none else .error (.io .nameTooLong) := by
  have hread : ∀ t : FileTree, t.read (conclusionsPath archive) = .error .nameTooLong :=
    fun t => FileTree.read_of_resolve_error (resolve_long hlong _ t)
  rw [conclusions, readFile?, find_of_long hread]
  cases c.root <;> rfl

end Long

end Distill.Cache
