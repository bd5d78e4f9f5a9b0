import Distill.Proofs.Files.Atomic

/-!
# Parts of trees

What stands at an entry of the root and below it is a part of a tree. A write into one part
leaves the others as they are, and it neither succeeds nor fails by what stands in them: in two
trees that agree on the part it does the same.

## Main definitions

* `FileTree.AgreeOn` — two trees agree on a part.
* `FileTree.Raised` — files stand where something has changed, or below.

## Main statements

* `FileTree.agreeOn_writeAtomic` — a write leaves the other parts as they are.
* `FileTree.AgreeOn.writeAtomic` — a write does the same in trees that agree on its part.
* `FileTree.Raised.agreeOn` — the same files make the same part.
-/

namespace Distill.FileTree

variable {t t' u v : FileTree} {part other name temporary : String}
  {above directory path rest : List String} {content : Bytes}

/-- The same stands at an entry of the root and below it. -/
def AgreeOn (part : String) (t u : FileTree) : Prop :=
  ∀ rest, t.look (part :: rest) = u.look (part :: rest)

namespace AgreeOn

@[refl] protected theorem refl (part : String) (t : FileTree) : AgreeOn part t t := fun _ => rfl

@[symm] protected theorem symm (h : AgreeOn part t u) : AgreeOn part u t :=
  fun rest => (h rest).symm

protected theorem trans (h : AgreeOn part t u) (h' : AgreeOn part u v) : AgreeOn part t v :=
  fun rest => (h rest).trans (h' rest)

theorem fileAt_eq (h : AgreeOn part t u) (rest : List String) :
    t.fileAt (part :: rest) = u.fileAt (part :: rest) := by
  rw [fileAt, fileAt, h rest]

end AgreeOn

/-! ## Writes into other parts -/

/-- **A write leaves the other parts as they are.** -/
theorem agreeOn_writeAtomic (hne : other ≠ part) (above : List String) (name : String)
    (content : Bytes) (t : FileTree) :
    AgreeOn part t (writeAtomic (other :: above) name content t).2 := by
  obtain ⟨u, hgrown, -, hlook⟩ := look_writeAtomic (other :: above) name content t
  intro rest
  have hpath : part :: rest ≠ other :: above ++ [name] := by
    rw [List.cons_append]
    exact fun heq => hne (List.cons.inj heq).1.symm
  rw [hlook, if_neg fun h => hpath h.2]
  rcases hgrown (part :: rest) with hsame | ⟨hbelow, -⟩
  · exact hsame.symm
  · exact absurd (List.cons_prefix_cons.mp hbelow).1.symm hne

/-! ## Writes into the part -/

/-- A path into the part, or that of the root. -/
def InPart (part : String) (path : List String) : Prop := ∀ name ∈ path.head?, name = part

theorem inPart_cons (part : String) (rest : List String) : InPart part (part :: rest) := by
  simp [InPart]

theorem InPart.dropLast (h : InPart part path) : InPart part path.dropLast := by
  cases path with
  | nil => exact h
  | cons first rest =>
      cases rest with
      | nil => simp [InPart]
      | cons _ _ => exact h

/-- Both have failed alike, or both have succeeded and their trees agree on the part. -/
inductive Alike (part : String) : Except FileError FileTree → Except FileError FileTree → Prop
  | ok {t u : FileTree} (agree : AgreeOn part t u) : Alike part (.ok t) (.ok u)
  | error (e : FileError) : Alike part (.error e) (.error e)

namespace AgreeOn

variable (h : AgreeOn part t u)
include h

theorem look_eq (hpath : InPart part path) : t.look path = u.look path := by
  cases path with
  | nil => rfl
  | cons first rest =>
      obtain rfl : first = part := hpath first rfl
      exact h rest

theorem hasDirectory_eq (hpath : InPart part path) : t.hasDirectory path = u.hasDirectory path := by
  rw [Bool.eq_iff_iff, hasDirectory_iff, hasDirectory_iff, h.look_eq hpath]

theorem isSome_entry?_eq (hpath : InPart part path) :
    (t.entry? path).isSome = (u.entry? path).isSome := by
  have hlook := congrArg Option.isSome (h.look_eq hpath)
  rwa [look, look, Option.isSome_map, Option.isSome_map] at hlook

theorem checkTarget_eq (hpath : InPart part path) : t.checkTarget path = u.checkTarget path := by
  rw [checkTarget, checkTarget, h.hasDirectory_eq hpath, h.hasDirectory_eq hpath.dropLast,
    h.isSome_entry?_eq hpath.dropLast]

/-- An entry with nothing below it is put where it may be put. -/
theorem put {e : Entry} (hpath : InPart part path) (hcheck : t.checkTarget path = .ok ())
    (he : entriesOf (some e) = []) : AgreeOn part (t.put path e) (u.put path e) := by
  rcases List.eq_nil_or_concat path with rfl | ⟨directory, name, rfl⟩
  · exact h
  · rw [List.concat_eq_append] at *
    obtain ⟨hdir, hfree, -⟩ := of_checkTarget hcheck
    obtain ⟨hdir', hfree', -⟩ := of_checkTarget ((h.checkTarget_eq hpath).symm.trans hcheck)
    intro rest
    rw [look_put hdir hfree he, look_put hdir' hfree' he, h rest]

theorem makeDirectory (hpath : InPart part path) :
    Alike part ((FileStep.makeDirectory path).apply t) ((FileStep.makeDirectory path).apply u) := by
  rw [FileStep.apply, FileStep.apply, ← h.hasDirectory_eq hpath, ← h.checkTarget_eq hpath,
    ← h.isSome_entry?_eq hpath]
  split
  · exact .ok h
  · cases hcheck : t.checkTarget path with
    | error e => exact .error e
    | ok _ =>
        simp only [bind, Except.bind]
        split
        · exact .error .notDirectory
        · exact .ok (h.put hpath hcheck rfl)

theorem write (hpath : InPart part path) (content : Bytes) :
    Alike part ((FileStep.write path content).apply t) ((FileStep.write path content).apply u) := by
  rw [FileStep.apply, FileStep.apply, ← h.checkTarget_eq hpath]
  cases hcheck : t.checkTarget path with
  | error e => exact .error e
  | ok _ => exact .ok (h.put hpath hcheck rfl)

/-- A file is moved within a directory. -/
theorem rename (hdirectory : InPart part (directory ++ [name]))
    (hsource : InPart part (directory ++ [temporary]))
    (hfile : t.look (directory ++ [temporary]) = some (.file content)) :
    Alike part ((FileStep.rename (directory ++ [temporary]) (directory ++ [name])).apply t)
      ((FileStep.rename (directory ++ [temporary]) (directory ++ [name])).apply u) := by
  have hfile' := (h.look_eq hsource).symm.trans hfile
  cases hcheck : t.checkTarget (directory ++ [name]) with
  | error e =>
      rw [FileStep.apply, FileStep.apply, ← h.checkTarget_eq hdirectory, hcheck]
      exact .error e
  | ok _ =>
      have hmoved : ∀ {t : FileTree}, t.checkTarget (directory ++ [name]) = .ok () →
          t.look (directory ++ [temporary]) = some (.file content) →
          ∃ t', (FileStep.rename (directory ++ [temporary]) (directory ++ [name])).apply t =
            .ok t' := fun hcheck hfile => by
        simp only [FileStep.apply, hcheck, entry?_eq_file_iff.mpr hfile, bind, Except.bind]
        exact ⟨_, rfl⟩
      obtain ⟨t', ht⟩ := hmoved hcheck hfile
      obtain ⟨u', hu⟩ := hmoved ((h.checkTarget_eq hdirectory).symm.trans hcheck) hfile'
      rw [ht, hu]
      refine .ok fun rest => ?_
      rw [(look_rename ht hfile).2, (look_rename hu hfile').2, h rest]

/-- The directories are made as far as they can be. -/
theorem makeDirectories {paths : List (List String)} (hpaths : ∀ path ∈ paths, InPart part path) :
    ∃ failure t' u', perform (paths.map .makeDirectory) t = (failure, t') ∧
      perform (paths.map .makeDirectory) u = (failure, u') ∧ AgreeOn part t' u' := by
  induction paths generalizing t u with
  | nil => exact ⟨none, t, u, rfl, rfl, h⟩
  | cons path paths ih =>
      have hmake := h.makeDirectory (hpaths path (by simp))
      simp only [List.map_cons, perform]
      generalize (FileStep.makeDirectory path).apply t = made at hmake
      generalize (FileStep.makeDirectory path).apply u = made' at hmake
      cases hmake with
      | ok agree => exact ih agree fun p hp => hpaths p (by simp [hp])
      | error e => exact ⟨some e, t, u, rfl, rfl, h⟩

/-- The file is written to the temporary place and moved, as far as that can be done. -/
theorem replace (hdirectory : ∀ name, InPart part (directory ++ [name])) (temporary name : String)
    (content : Bytes) :
    ∃ failure t' u', perform [.write (directory ++ [temporary]) [],
        .write (directory ++ [temporary]) content,
        .rename (directory ++ [temporary]) (directory ++ [name])] t = (failure, t') ∧
      perform [.write (directory ++ [temporary]) [],
        .write (directory ++ [temporary]) content,
        .rename (directory ++ [temporary]) (directory ++ [name])] u = (failure, u') ∧
      AgreeOn part t' u' := by
  simp only [perform]
  have hfirst := h.write (hdirectory temporary) []
  generalize (FileStep.write (directory ++ [temporary]) []).apply t = made at hfirst
  generalize (FileStep.write (directory ++ [temporary]) []).apply u = made' at hfirst
  cases hfirst with
  | error e => exact ⟨some e, t, u, rfl, rfl, h⟩
  | @ok t₁ u₁ h₁ =>
      have hsecond := h₁.write (hdirectory temporary) content
      have hfile := fun t₂ (ht : (FileStep.write (directory ++ [temporary]) content).apply t₁ =
        .ok t₂) => (look_write (q := directory ++ [temporary]) ht).trans (if_pos rfl)
      simp only
      generalize (FileStep.write (directory ++ [temporary]) content).apply t₁ =
        made at hsecond hfile
      generalize (FileStep.write (directory ++ [temporary]) content).apply u₁ = made' at hsecond
      cases hsecond with
      | error e => exact ⟨some e, t₁, u₁, rfl, rfl, h₁⟩
      | @ok t₂ u₂ h₂ =>
          have hthird := h₂.rename (hdirectory name) (hdirectory temporary) (hfile t₂ rfl)
          simp only
          generalize (FileStep.rename (directory ++ [temporary]) (directory ++ [name])).apply t₂ =
            made at hthird
          generalize (FileStep.rename (directory ++ [temporary]) (directory ++ [name])).apply u₂ =
            made' at hthird
          cases hthird with
          | error e => exact ⟨some e, t₂, u₂, rfl, rfl, h₂⟩
          | @ok t₃ u₃ h₃ => exact ⟨none, t₃, u₃, rfl, rfl, h₃⟩

theorem erase (directory : List String) (name : String) :
    AgreeOn part (t.erase (directory ++ [name])) (u.erase (directory ++ [name])) := by
  intro rest
  rw [look_erase, look_erase, h rest]

/-- **A write does the same in trees that agree on its part.** -/
theorem writeAtomic (above : List String) (name : String) (content : Bytes) :
    (FileTree.writeAtomic (part :: above) name content t).1 =
        (FileTree.writeAtomic (part :: above) name content u).1 ∧
      AgreeOn part (FileTree.writeAtomic (part :: above) name content t).2
        (FileTree.writeAtomic (part :: above) name content u).2 := by
  have hin : ∀ name, InPart part (part :: above ++ [name]) := fun name => inPart_cons part _
  have htemporary : temporaryName ((entriesOf (t.entry? (part :: above))).map (·.1)) =
      temporaryName ((entriesOf (u.entry? (part :: above))).map (·.1)) :=
    temporaryName_congr fun name => by
      rw [mem_entriesOf_iff, mem_entriesOf_iff, h.look_eq (hin name)]
  have hpaths : ∀ path ∈ directoriesTo (part :: above), InPart part path := by
    intro path hpath name hname
    obtain ⟨after, heq⟩ := prefix_of_mem_directoriesTo hpath
    cases path with
    | nil => simp at hname
    | cons first rest =>
        obtain rfl := Option.some.inj hname
        exact (List.cons.inj heq).1
  obtain ⟨failure, t₁, u₁, hmade, hmade', h₁⟩ := h.makeDirectories hpaths
  rw [FileTree.writeAtomic, FileTree.writeAtomic, ← htemporary]
  generalize temporaryName ((entriesOf (t.entry? (part :: above))).map (·.1)) = temporary
  -- After a failure the temporary file is taken away again.
  have hcleanup : ∀ {t u : FileTree}, AgreeOn part t u →
      AgreeOn part
        (if t.hasDirectory (part :: above) then t.erase (part :: above ++ [temporary]) else t)
        (if u.hasDirectory (part :: above) then u.erase (part :: above ++ [temporary]) else u) :=
    fun hagree => by
      rw [hagree.hasDirectory_eq (inPart_cons part above)]
      split
      · exact hagree.erase _ _
      · exact hagree
  simp only [atomicSteps, perform_append, hmade, hmade']
  cases failure with
  | some e => exact ⟨rfl, hcleanup h₁⟩
  | none =>
      obtain ⟨failure, t₂, u₂, hreplaced, hreplaced', h₂⟩ := h₁.replace hin temporary name content
      simp only [hreplaced, hreplaced']
      cases failure with
      | some e => exact ⟨rfl, hcleanup h₂⟩
      | none => exact ⟨rfl, h₂⟩

end AgreeOn

/-! ## Parts by their files -/

/-- A file that stands at a path or below tells what stands at the path. -/
theorem look_eq_of_file (hfiles : ∀ rest, u.fileAt (path ++ rest) = v.fileAt (path ++ rest))
    (hfile : u.look (path ++ rest) = some (.file content)) : u.look path = v.look path := by
  have hfile' : v.look (path ++ rest) = some (.file content) :=
    fileAt_eq_some_iff.mp ((hfiles rest).symm.trans (fileAt_eq_some_iff.mpr hfile))
  by_cases hrest : rest = []
  · rw [hrest, List.append_nil] at hfile hfile'
    rw [hfile, hfile']
  · rw [look_of_append hfile hrest, look_of_append hfile' hrest]

/-- Wherever something has changed, a file stands now, there or below. -/
def Raised (t u : FileTree) : Prop :=
  ∀ q, u.look q = t.look q ∨ ∃ rest content, u.look (q ++ rest) = some (.file content)

namespace Raised

@[refl] protected theorem refl (t : FileTree) : Raised t t := fun _ => Or.inl rfl

protected theorem trans (h : Raised t u) (h' : Raised u v) : Raised t v := by
  intro q
  rcases h' q with hsame | hfile
  · rcases h q with hsame' | ⟨rest, content, hfile⟩
    · exact Or.inl (hsame.trans hsame')
    · right
      rcases h' (q ++ rest) with hkept | ⟨rest', content', hfile'⟩
      · exact ⟨rest, content, hkept.trans hfile⟩
      · exact ⟨rest ++ rest', content', by rwa [← List.append_assoc]⟩
  · exact Or.inr hfile

/-- **Trees with the same files agree,** if they have come from the same tree. -/
theorem agreeOn (h : Raised t u) (h' : Raised t v)
    (hfiles : ∀ rest, u.fileAt (part :: rest) = v.fileAt (part :: rest)) : AgreeOn part u v := by
  intro rest
  have hbelow : ∀ after, u.fileAt (part :: rest ++ after) = v.fileAt (part :: rest ++ after) :=
    fun after => hfiles (rest ++ after)
  rcases h (part :: rest) with hsame | ⟨after, content, hfile⟩
  · rcases h' (part :: rest) with hsame' | ⟨after, content, hfile⟩
    · exact hsame.trans hsame'.symm
    · exact (look_eq_of_file (fun after => (hbelow after).symm) hfile).symm
  · exact look_eq_of_file hbelow hfile

end Raised

/-- A write that succeeds makes a file and what it needs. -/
theorem raised_writeAtomic (h : (writeAtomic directory name content t).1 = none) :
    Raised t (writeAtomic directory name content t).2 := by
  obtain ⟨u, hgrown, -, hlook⟩ := look_writeAtomic directory name content t
  have hfile : look (writeAtomic directory name content t).2 (directory ++ [name]) =
      some (.file content) := by rw [hlook, if_pos ⟨h, rfl⟩]
  intro q
  by_cases hq : q = directory ++ [name]
  · exact Or.inr ⟨[], content, by rwa [List.append_nil, hq]⟩
  · rw [hlook, if_neg fun h => hq h.2]
    rcases hgrown q with hsame | ⟨⟨rest, rfl⟩, -⟩
    · exact Or.inl hsame
    · exact Or.inr ⟨rest ++ [name], content, by rwa [← List.append_assoc]⟩

end Distill.FileTree
