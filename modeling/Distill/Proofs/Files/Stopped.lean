import Distill.Proofs.Files.Ways

/-!
# Writes that stop on the way

A write by way of a temporary file may stop after any of its steps, with any part of the
content written, and the temporary file may be left behind. Wherever it stops, the file that
was to be written is the old one or the complete new one.

## Main definitions

* `FileTree.Stopped` — the trees in which a write may stop.
* `FileTree.Staged` — what may stand in such a tree.

## Main statements

* `FileTree.Stopped.staged`, `FileTree.Stopped.plain` — what a write leaves wherever it stops.
* `FileTree.Staged.grownAlong` — other paths are seen as if only directories had been made.
-/

namespace Distill

namespace FileTree

variable {t u : FileTree} {directory path : List String} {name temporary : String} {content : Bytes}

/-! ## Steps of a write -/

/-- The steps of a write before the temporary file is moved, when only some of the octets come
to be written. -/
def stagingSteps (directory : List String) (temporary : String) (written : Bytes) :
    List FileStep :=
  (directoriesTo directory).map .makeDirectory ++
    [.write (directory ++ [temporary]) [], .write (directory ++ [temporary]) written]

/-- The trees in which a write by way of a temporary file may stop. That the octets are forced to
the disk before the file is moved is not seen in the tree. -/
inductive Stopped (directory : List String) (name temporary : String) (content : Bytes)
    (t : FileTree) : FileTree → Prop
  /-- Before the temporary file is moved. -/
  | before (n k : Nat) : Stopped directory name temporary content t
      (perform ((stagingSteps directory temporary (content.take n)).take k) t).2
  /-- After it is moved. -/
  | moved {u : FileTree}
      (done : perform (atomicSteps directory name temporary content) t = (none, u)) :
      Stopped directory name temporary content t u
  /-- The temporary file is taken away. -/
  | cleared {u : FileTree} (stopped : Stopped directory name temporary content t u) :
      Stopped directory name temporary content t (u.erase (directory ++ [temporary]))

/-- What may stand in a tree in which a write has stopped. -/
structure Staged (directory : List String) (name temporary : String) (content : Bytes)
    (t u : FileTree) : Prop where
  staging : u.look (directory ++ [temporary]) = none ∨
    IsShort temporary ∧ ∃ b, u.look (directory ++ [temporary]) = some (.file b)
  target : u.look (directory ++ [name]) = t.look (directory ++ [name]) ∨
    IsShort name ∧ u.look (directory ++ [name]) = some (.file content)
  others : ∀ q, q ≠ directory ++ [temporary] → q ≠ directory ++ [name] →
    u.look q = t.look q ∨ q <+: directory ∧ t.look q = none ∧
      u.look q = some (.directory []) ∧ IsShort (q.getLastD "")

theorem atomicSteps_eq (directory : List String) (name temporary : String) (content : Bytes) :
    atomicSteps directory name temporary content = stagingSteps directory temporary content ++
      [.rename (directory ++ [temporary]) (directory ++ [name])] := by
  rw [atomicSteps, stagingSteps, List.append_assoc]
  rfl

/-- Nothing but the temporary file is changed when it is written, once or several times. -/
theorem perform_writes (contents : List Bytes) (t : FileTree)
    (ht : t.look (directory ++ [temporary]) = none ∨
      IsShort temporary ∧ ∃ b, t.look (directory ++ [temporary]) = some (.file b)) :
    (∀ q, q ≠ directory ++ [temporary] →
      look (perform (contents.map (.write (directory ++ [temporary]))) t).2 q = t.look q) ∧
    (look (perform (contents.map (.write (directory ++ [temporary]))) t).2
        (directory ++ [temporary]) = none ∨
      IsShort temporary ∧
        ∃ b, look (perform (contents.map (.write (directory ++ [temporary]))) t).2
          (directory ++ [temporary]) = some (.file b)) := by
  induction contents generalizing t with
  | nil => exact ⟨fun _ _ => rfl, ht⟩
  | cons b contents ih =>
      rw [List.map_cons, perform]
      cases hwrite : (FileStep.write (directory ++ [temporary]) b).apply t with
      | error e => exact ⟨fun _ _ => rfl, ht⟩
      | ok u =>
          have hlook := fun q => look_write (q := q) hwrite
          have hfile : u.look (directory ++ [temporary]) = some (.file b) := by
            rw [hlook, if_pos rfl]
          obtain ⟨hothers, htemporary⟩ := ih u (Or.inr ⟨isShort_of_write hwrite, b, hfile⟩)
          refine ⟨fun q hq => ?_, htemporary⟩
          rw [hothers q hq, hlook, if_neg hq]

/-- The steps before the temporary file is moved touch nothing but that file and the directories
above it. -/
theorem perform_staging (written : Bytes) (k : Nat)
    (hnew : t.look (directory ++ [temporary]) = none) (hname : temporary ≠ name) :
    Staged directory name temporary content t
      (perform ((stagingSteps directory temporary written).take k) t).2 := by
  have hgrown : Grown directory t
      (perform (((directoriesTo directory).take k).map .makeDirectory) t).2 :=
    grown_perform (fun _ hp => prefix_of_mem_directoriesTo (List.mem_of_mem_take hp)) t
  have hsplit : (stagingSteps directory temporary written).take k =
      ((directoriesTo directory).take k).map .makeDirectory ++
        (([[], written] : List Bytes).take (k - directory.length)).map
          (.write (directory ++ [temporary])) := by
    rw [stagingSteps, List.take_append, List.map_take, List.map_take, List.length_map,
      directoriesTo, List.length_map, List.length_range]
    rfl
  rw [hsplit, perform_append]
  generalize perform (((directoriesTo directory).take k).map .makeDirectory) t = made at hgrown
  obtain ⟨failure, v⟩ := made
  have hnone : v.look (directory ++ [temporary]) = none :=
    (hgrown.look_below temporary).trans hnew
  have htarget : v.look (directory ++ [name]) = t.look (directory ++ [name]) :=
    hgrown.look_below name
  cases failure with
  | some e => exact ⟨Or.inl hnone, Or.inl htarget, fun q _ _ => hgrown q⟩
  | none =>
      obtain ⟨hothers, htemporary⟩ := perform_writes
        (([[], written] : List Bytes).take (k - directory.length)) v (Or.inl hnone)
      refine ⟨htemporary, Or.inl ?_, fun q hq _ => ?_⟩
      · rw [hothers _ (by simpa using hname.symm), htarget]
      · rw [hothers q hq]
        exact hgrown q

/-- **Wherever a write stops,** the file that was to be written is what it was, or it is complete.
Only the temporary file and directories have come into being. -/
theorem Stopped.staged (h : Stopped directory name temporary content t u)
    (hnew : t.look (directory ++ [temporary]) = none) (hname : temporary ≠ name) :
    Staged directory name temporary content t u := by
  induction h with
  | before n k => exact perform_staging _ k hnew hname
  | @moved u hdone =>
      have hgrown : Grown directory t
          (perform ((directoriesTo directory).map .makeDirectory) t).2 :=
        grown_perform (fun _ => prefix_of_mem_directoriesTo) t
      rw [atomicSteps, perform_append] at hdone
      generalize perform ((directoriesTo directory).map .makeDirectory) t = made at hgrown hdone
      obtain ⟨failure, v⟩ := made
      cases failure with
      | some e => simp at hdone
      | none =>
          have hnone : v.look (directory ++ [temporary]) = none :=
            (hgrown.look_below temporary).trans hnew
          obtain ⟨hshort, hlook⟩ : IsShort name ∧ ∀ q, u.look q =
              if q = directory ++ [name] then some (.file content) else v.look q :=
            look_replace hnone hdone
          refine ⟨Or.inl ?_, Or.inr ⟨hshort, ?_⟩, fun q _ hq => ?_⟩
          · rw [hlook, if_neg (by simpa using hname), hnone]
          · rw [hlook, if_pos rfl]
          · rw [hlook, if_neg hq]
            exact hgrown q
  | @cleared u _ ih =>
      have hfree : u.look (directory ++ [temporary]) ≠ some (.directory []) := by
        rcases ih.staging with hnone | ⟨-, b, hfile⟩
        · simp [hnone]
        · simp [hfile]
      have hlook := fun q => look_erase_of_ne (q := q) hfree
      refine ⟨Or.inl ?_, ?_, fun q hq hq' => ?_⟩
      · rw [hlook, if_pos rfl]
      · rw [hlook, if_neg (by simpa using hname.symm)]
        exact ih.target
      · rw [hlook, if_neg hq]
        exact ih.others q hq hq'

/-- **A tree stays plain** wherever a write stops. -/
theorem Stopped.plain (h : Stopped directory name temporary content t u) (ht : t.Plain)
    (hnew : t.look (directory ++ [temporary]) = none) (hname : temporary ≠ name) : u.Plain := by
  have hstaged := h.staged hnew hname
  refine ⟨fun q target hlink => ?_, possible_of_getLastD fun q hq => ?_, ?_⟩
  · by_cases htemporary : q = directory ++ [temporary]
    · rcases hstaged.staging with hnone | ⟨-, b, hfile⟩
      · simp [htemporary, hnone] at hlink
      · simp [htemporary, hfile] at hlink
    · by_cases htarget : q = directory ++ [name]
      · rcases hstaged.target with hsame | ⟨-, hfile⟩
        · rw [htarget, hsame] at hlink
          exact ht.unlinked _ target hlink
        · simp [htarget, hfile] at hlink
      · rcases hstaged.others q htemporary htarget with hsame | ⟨-, -, hdir, -⟩
        · exact ht.unlinked q target (hsame ▸ hlink)
        · simp [hdir] at hlink
  · by_cases htemporary : q = directory ++ [temporary]
    · rcases hstaged.staging with hnone | ⟨hshort, -⟩
      · exact absurd (htemporary ▸ hnone) hq
      · rwa [htemporary, List.getLastD_concat]
    · by_cases htarget : q = directory ++ [name]
      · rcases hstaged.target with hsame | ⟨hshort, -⟩
        · exact ht.possible.getLastD (by rwa [htarget, ← hsame, ← htarget])
        · rwa [htarget, List.getLastD_concat]
      · rcases hstaged.others q htemporary htarget with hsame | ⟨-, -, -, hshort⟩
        · exact ht.possible.getLastD (hsame ▸ hq)
        · exact hshort
  · clear hstaged
    induction h with
    | before n k => exact ht.ordered.perform _
    | @moved u hdone =>
        have hperform := ht.ordered.perform (atomicSteps directory name temporary content)
        rwa [hdone] at hperform
    | cleared _ ih => exact ih.erase _

/-- **A write that comes to its end,** whether it fails or not, is one that stops. -/
theorem stopped_writeAtomic (directory : List String) (name : String) (content : Bytes)
    (t : FileTree) :
    Stopped directory name (temporaryName ((entriesOf (t.entry? directory)).map (·.1))) content t
      (writeAtomic directory name content t).2 := by
  rw [writeAtomic]
  set temporary := temporaryName ((entriesOf (t.entry? directory)).map (·.1))
  have hall : (stagingSteps directory temporary (content.take content.length)).take
      (stagingSteps directory temporary content).length =
        stagingSteps directory temporary content := by
    rw [List.take_length, List.take_length]
  have hstaging : Stopped directory name temporary content t
      (perform (stagingSteps directory temporary content) t).2 := hall ▸ .before _ _
  cases hperform : perform (atomicSteps directory name temporary content) t with
  | mk failure u =>
      cases failure with
      | none => exact .moved hperform
      | some e =>
          -- What fails leaves the tree as the steps before it did.
          have hu : u = (perform (stagingSteps directory temporary content) t).2 := by
            rw [atomicSteps_eq, perform_append] at hperform
            split at hperform
            · next v hv =>
              rw [hv]
              rw [perform] at hperform
              split at hperform
              · simp [perform] at hperform
              · exact (Prod.mk.inj hperform).2.symm
            · next hv =>
              rw [hv]
              exact (Prod.mk.inj hperform).2.symm
          simp only
          split
          · exact hu ▸ .cleared hstaging
          · exact hu ▸ hstaging

/-! ## Other paths -/

namespace Staged

variable (h : Staged directory name temporary content t u)
include h

/-- **Seen from elsewhere only directories have been made.** -/
theorem grownAlong (htarget : ¬ directory ++ [name] <+: path)
    (htemporary : ¬ directory ++ [temporary] <+: path) : GrownAlong path t u := by
  intro q hq
  refine (h.others q ?_ ?_).imp_right And.right
  · rintro rfl
    exact htemporary hq
  · rintro rfl
    exact htarget hq

/-- So it is on the way to the file itself, as long as that has not been replaced. -/
theorem grownAlong_target
    (hsame : u.look (directory ++ [name]) = t.look (directory ++ [name])) :
    GrownAlong (directory ++ [name]) t u := by
  intro q hq
  rcases List.prefix_concat_iff.mp hq with rfl | habove
  · exact Or.inl hsame
  · have hlength := habove.length_le
    refine (h.others q ?_ ?_).imp_right And.right
    all_goals
      rintro rfl
      rw [List.length_append, List.length_singleton] at hlength
      omega

/-- A directory that is new is on the way to the file. -/
theorem prefix_of_new (hnone : t.look path = none) (hdir : u.look path = some (.directory [])) :
    path <+: directory := by
  by_cases htemporary : path = directory ++ [temporary]
  · rcases h.staging with hmissing | ⟨-, b, hfile⟩
    · simp [htemporary, hmissing] at hdir
    · simp [htemporary, hfile] at hdir
  · by_cases htarget : path = directory ++ [name]
    · rcases h.target with hsame | ⟨-, hfile⟩
      · rw [htarget, hsame, ← htarget, hnone] at hdir
        simp at hdir
      · simp [htarget, hfile] at hdir
    · rcases h.others path htemporary htarget with hsame | ⟨hstart, -⟩
      · rw [hsame, hnone] at hdir
        simp at hdir
      · exact hstart

end Staged

end FileTree

end Distill
