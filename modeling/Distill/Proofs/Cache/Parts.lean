import Distill.Proofs.Cache.Entries
import Distill.Proofs.Files.Parts

/-!
# The parts of archives

What a cache holds for an archive is one part of its tree. To store something for an archive
leaves the parts of the others as they are, and does the same in two caches that agree on the
archive.

## Main definitions

* `Cache.AgreeOn` — two caches hold the same for an archive.

## Main statements

* `Cache.agreeOn_put`, `Cache.agreeOn_putConclusions` — the parts of other archives stay.
* `Cache.AgreeOn.put`, `Cache.AgreeOn.putConclusions` — what is stored, and whether it can be, is
  the same in caches that agree.
-/

namespace Distill.Cache

variable {c c' d d' : Cache} {archive other node : String} {a : Artifact}

/-- Two caches hold the same for an archive: the same files and directories. -/
def AgreeOn (c : Cache) (archive : String) (c' : Cache) : Prop :=
  c.tree.AgreeOn (encodeName archive) c'.tree

namespace AgreeOn

protected theorem refl (c : Cache) (archive : String) : c.AgreeOn archive c :=
  FileTree.AgreeOn.refl _ _

protected theorem symm (h : c.AgreeOn archive c') : c'.AgreeOn archive c :=
  FileTree.AgreeOn.symm h

protected theorem trans (h : c.AgreeOn archive c') (h' : c'.AgreeOn archive d) :
    c.AgreeOn archive d :=
  FileTree.AgreeOn.trans h h'

theorem fileOf_eq (h : c.AgreeOn archive c') (node : String) :
    c.fileOf archive node = c'.fileOf archive node :=
  FileTree.AgreeOn.fileAt_eq h _

/-- A link on the way to an artifact is in the part of the archive. -/
theorem direct (h : c.AgreeOn archive c') (hc : c.Direct archive) : c'.Direct archive := by
  intro node q hq target hlink
  cases q with
  | nil => simp at hlink
  | cons first rest =>
      obtain rfl : first = encodeName archive := (List.cons_prefix_cons.mp hq).1
      exact hc node _ hq target ((h rest).trans hlink)

end AgreeOn

/-! ## Other archives -/

theorem agreeOn_writeFile (hne : other ≠ archive) (above : List String) (name : String)
    (content : Bytes) (c : Cache) :
    c.AgreeOn archive (c.writeFile (encodeName other :: above) name content).2 :=
  FileTree.agreeOn_writeAtomic (fun heq => hne (encodeName_injective heq)) above name content c.tree

/-- **What is stored for another archive changes nothing.** -/
theorem agreeOn_put (hne : other ≠ archive) (c : Cache) (a : Artifact) :
    c.AgreeOn archive (c.put other a).2 := by
  rw [Cache.put]
  cases encode a with
  | error e => exact AgreeOn.refl c archive
  | ok data => exact agreeOn_writeFile hne _ _ _ c

theorem agreeOn_putConclusions (hne : other ≠ archive) (c : Cache) (cs : List Conclusion) :
    c.AgreeOn archive (c.putConclusions other cs).2 :=
  agreeOn_writeFile hne _ _ _ c

/-! ## The archive itself -/

namespace AgreeOn

variable (h : c.AgreeOn archive c')
include h

theorem writeFile (above : List String) (name : String) (content : Bytes) :
    (c.writeFile (encodeName archive :: above) name content).1 =
        (c'.writeFile (encodeName archive :: above) name content).1 ∧
      (c.writeFile (encodeName archive :: above) name content).2.AgreeOn archive
        (c'.writeFile (encodeName archive :: above) name content).2 := by
  obtain ⟨hfailure, htree⟩ := FileTree.AgreeOn.writeAtomic h above name content
  exact ⟨congrArg (fun failure : Option FileError => failure.elim (Except.ok ())
    (Except.error <| CacheError.io ·)) hfailure, htree⟩

/-- **An artifact is stored in both, or in neither.** -/
theorem put (a : Artifact) : (c.put archive a).1 = (c'.put archive a).1 ∧
    (c.put archive a).2.AgreeOn archive (c'.put archive a).2 := by
  rw [Cache.put, Cache.put]
  cases encode a with
  | error e => exact ⟨rfl, h⟩
  | ok data => exact h.writeFile _ _ _

theorem putConclusions (cs : List Conclusion) :
    (c.putConclusions archive cs).1 = (c'.putConclusions archive cs).1 ∧
      (c.putConclusions archive cs).2.AgreeOn archive (c'.putConclusions archive cs).2 :=
  h.writeFile _ _ _

end AgreeOn

/-! ## Files that are stored -/

/-- Files stand where something has changed since, or below. -/
theorem raised_writeFile {directory : List String} {name : String} {content : Bytes}
    (h : (c.writeFile directory name content).1 = .ok ()) :
    c.tree.Raised (c.writeFile directory name content).2.tree := by
  refine FileTree.raised_writeAtomic ?_
  rw [Cache.writeFile] at h
  cases hfailure : (c.tree.writeAtomic directory name content).1 with
  | none => rfl
  | some e => simp [hfailure] at h

theorem raised_put (h : (c.put archive a).1 = .ok ()) :
    c.tree.Raised (c.put archive a).2.tree := by
  rw [Cache.put] at h ⊢
  cases hencode : encode a with
  | error e => exact FileTree.Raised.refl c.tree
  | ok data =>
      rw [hencode] at h
      exact raised_writeFile h

end Distill.Cache
