import Distill.Proofs.Files.Look
import Mathlib.Data.List.Nodup

/-!
# Writes that happen completely or not at all

A write by way of a temporary file changes nothing but the file that is to be written, and
the directories above it that were missing. After a failure the file is what it was.

## Main definitions

* `FileTree.Grown` — directories may have been made on the way to a path.
* `FileTree.fileAt` — the content of the file at a path.

## Main statements

* `FileTree.look_writeAtomic`, `FileTree.fileAt_writeAtomic` — what such a write changes.
-/

namespace Distill

/-- The content of a file. -/
def Entry.content? : Entry → Option Bytes
  | file content => some content
  | link _ | directory _ => none

namespace FileTree

variable {t t' u : FileTree} {name : String} {directory above path q : List String}
  {content : Bytes}

/-! ## Single operations -/

/-- A name that may be given to an entry. -/
def IsShort (name : String) : Prop := name.utf8ByteSize ≤ maxNameLength

instance (name : String) : Decidable (IsShort name) := inferInstanceAs (Decidable (_ ≤ _))

theorem of_checkTarget (h : t.checkTarget (directory ++ [name]) = .ok ()) :
    t.look directory = some (.directory []) ∧
      t.look (directory ++ [name]) ≠ some (.directory []) ∧ IsShort name := by
  rw [checkTarget, List.dropLast_concat] at h
  split at h
  · simp at h
  · next hdir =>
    split at h
    · simp at h
    · next hshort =>
      split at h
      · simp at h
      · next hfree =>
        refine ⟨hasDirectory_iff.mp (by simpa using hdir), ?_, ?_⟩
        · exact hasDirectory_eq_false_iff.mp (by simpa using hfree)
        · rw [List.getLastD_concat] at hshort
          exact Nat.not_lt.mp hshort

/-- A file that is written is the only change. -/
theorem look_write (h : (FileStep.write (directory ++ [name]) content).apply t = .ok t') :
    t'.look q = if q = directory ++ [name] then some (.file content) else t.look q := by
  cases hcheck : t.checkTarget (directory ++ [name]) with
  | error e => simp [FileStep.apply, hcheck, bind, Except.bind] at h
  | ok _ =>
      simp only [FileStep.apply, hcheck, bind, Except.bind, pure, Except.pure,
        Except.ok.injEq] at h
      obtain ⟨hdir, hfree, -⟩ := of_checkTarget hcheck
      rw [← h, look_put hdir hfree rfl]
      rfl

/-- A name that is too long cannot be given to a file. -/
theorem isShort_of_write (h : (FileStep.write (directory ++ [name]) content).apply t = .ok t') :
    IsShort name := by
  cases hcheck : t.checkTarget (directory ++ [name]) with
  | error e => simp [FileStep.apply, hcheck, bind, Except.bind] at h
  | ok _ => exact (of_checkTarget hcheck).2.2

/-- Nothing has changed, but that directories have been made on the way to a path, with names
that are not too long. -/
def Grown (above : List String) (t t' : FileTree) : Prop :=
  ∀ q, t'.look q = t.look q ∨
    q <+: above ∧ t.look q = none ∧ t'.look q = some (.directory []) ∧ IsShort (q.getLastD "")

theorem Grown.refl (above : List String) (t : FileTree) : Grown above t t := fun _ => Or.inl rfl

theorem Grown.trans (h : Grown above t u) (h' : Grown above u t') : Grown above t t' := by
  intro q
  rcases h' q with heq | ⟨hbelow, hnone, hdir, hshort⟩
  · rw [heq]
    exact h q
  · rcases h q with heq | ⟨_, _, hdir', _⟩
    · exact Or.inr ⟨hbelow, heq ▸ hnone, hdir, hshort⟩
    · rw [hdir'] at hnone
      simp at hnone

/-- Nothing has changed below the path. -/
theorem Grown.look_below (h : Grown above t t') (name : String) :
    t'.look (above ++ [name]) = t.look (above ++ [name]) := by
  rcases h (above ++ [name]) with heq | ⟨hbelow, -, -, -⟩
  · exact heq
  · have hlen := hbelow.length_le
    rw [List.length_append, List.length_singleton] at hlen
    omega

/-- A directory that is made is the only change. -/
theorem grown_makeDirectory (h : (FileStep.makeDirectory path).apply t = .ok t')
    (hpath : path <+: above) : Grown above t t' := by
  rw [FileStep.apply] at h
  split at h
  · rw [← Except.ok.inj h]
    exact Grown.refl above t
  · next hnew =>
    rcases List.eq_nil_or_concat path with rfl | ⟨directory, name, rfl⟩
    · exact absurd rfl hnew
    rw [List.concat_eq_append] at *
    cases hcheck : t.checkTarget (directory ++ [name]) with
    | error e => simp [hcheck, bind, Except.bind] at h
    | ok _ =>
        obtain ⟨hdir, hfree, hshort⟩ := of_checkTarget hcheck
        cases hthere : t.entry? (directory ++ [name]) with
        | some e =>
            simp [hcheck, hthere, bind, Except.bind, throw, throwThe, MonadExceptOf.throw] at h
        | none =>
            simp only [hcheck, hthere, bind, Except.bind, pure, Except.pure, Option.isSome_none,
              Bool.false_eq_true, if_false, Except.ok.injEq] at h
            rw [entry?_eq_none_iff] at hthere
            intro q
            rw [← h, look_put hdir hfree rfl]
            split
            · next hq =>
              subst hq
              exact Or.inr ⟨hpath, hthere, rfl, by rwa [List.getLastD_concat]⟩
            · exact Or.inl rfl

/-- A file that is moved within a directory takes the place of what was at the target. -/
theorem look_rename {source : String}
    (h : (FileStep.rename (directory ++ [source]) (directory ++ [name])).apply t = .ok t')
    (hsource : t.look (directory ++ [source]) = some (.file content)) :
    IsShort name ∧ ∀ q, t'.look q = if q = directory ++ [name] then some (.file content)
      else if q = directory ++ [source] then none else t.look q := by
  cases hcheck : t.checkTarget (directory ++ [name]) with
  | error e => simp [FileStep.apply, hcheck, bind, Except.bind] at h
  | ok _ =>
      have hentry := entry?_eq_file_iff.mpr hsource
      simp only [FileStep.apply, hcheck, hentry, bind, Except.bind, pure, Except.pure,
        Except.ok.injEq] at h
      obtain ⟨hdir, hfree, hshort⟩ := of_checkTarget hcheck
      refine ⟨hshort, fun q => ?_⟩
      have herase : ∀ q, look (t.erase (directory ++ [source])) q =
          if q = directory ++ [source] then none else t.look q :=
        fun q => look_erase_of_ne (by rw [hsource]; simp)
      rw [← h, look_put (e := .file content) _ _ rfl, herase]
      · rfl
      · rw [herase, if_neg (by simp), hdir]
      · rw [herase]
        split
        · simp
        · exact hfree

/-! ## Several operations -/

theorem perform_append (ss ss' : List FileStep) (t : FileTree) :
    perform (ss ++ ss') t =
      match perform ss t with
      | (none, u) => perform ss' u
      | (some e, u) => (some e, u) := by
  induction ss generalizing t with
  | nil => rfl
  | cons s ss ih =>
      rw [List.cons_append, perform, perform]
      split
      · next u _ => exact ih u
      · rfl

/-- Directories that are made are the only change, whether or not all can be made. -/
theorem grown_perform {paths : List (List String)} (h : ∀ path ∈ paths, path <+: above)
    (t : FileTree) : Grown above t (perform (paths.map .makeDirectory) t).2 := by
  induction paths generalizing t with
  | nil => exact Grown.refl above t
  | cons path rest ih =>
      rw [List.map_cons, perform]
      split
      · next u hu =>
        refine (grown_makeDirectory hu (h path (by simp))).trans ?_
        exact ih (fun p hp => h p (by simp [hp])) u
      · exact Grown.refl above t

theorem prefix_of_mem_directoriesTo (h : path ∈ directoriesTo above) : path <+: above := by
  obtain ⟨n, -, rfl⟩ := List.mem_map.mp h
  exact List.take_prefix _ _

/-! ## The temporary file -/

private theorem repr_injective {m n : Nat} (h : m.repr = n.repr) : m = n := by
  have hlist := congrArg String.toList h
  rw [Nat.toList_repr, Nat.toList_repr] at hlist
  rw [← Nat.ofDigitChars_ten_toDigits (n := m), hlist, Nat.ofDigitChars_ten_toDigits]

/-- The temporary file gets the first of its names that is not taken. There is one, for there is
one name more than are taken. -/
theorem temporaryName_spec (taken : List String) : ∃ n : Nat,
    temporaryName taken = ".tmp" ++ toString n ∧ ".tmp" ++ toString n ∉ taken ∧
      ∀ m < n, ".tmp" ++ toString m ∈ taken := by
  rw [temporaryName]
  set names := (List.range (taken.length + 1)).map fun n => ".tmp" ++ toString n with hnames
  have hnodup : names.Nodup := by
    rw [hnames]
    refine List.Nodup.map ?_ List.nodup_range
    intro m n h
    have hlist := congrArg String.toList h
    simp only [String.toList_append] at hlist
    exact repr_injective (String.toList_inj.mp (List.append_cancel_left hlist))
  cases hfind : names.find? fun name => !taken.contains name with
  | some name =>
      rw [hnames, List.find?_map, Option.map_eq_some_iff] at hfind
      obtain ⟨n, hn, rfl⟩ := hfind
      obtain ⟨hfree, -, hbefore⟩ := List.find?_range_eq_some.mp hn
      exact ⟨n, rfl, by simpa using hfree, fun m hm => by simpa using hbefore m hm⟩
  | none =>
      exfalso
      rw [List.find?_eq_none] at hfind
      have hsub : names ⊆ taken := by
        intro name hname
        simpa using hfind name hname
      have hlen := (List.subperm_of_subset hnodup hsub).length_le
      rw [hnames, List.length_map, List.length_range] at hlen
      omega

theorem temporaryName_notMem (taken : List String) : temporaryName taken ∉ taken := by
  obtain ⟨n, heq, hfree, -⟩ := temporaryName_spec taken
  rwa [heq]

/-- The name of the temporary file depends on which names are taken only. -/
theorem temporaryName_congr {taken taken' : List String}
    (h : ∀ name, name ∈ taken ↔ name ∈ taken') : temporaryName taken = temporaryName taken' := by
  obtain ⟨n, heq, hfree, hbefore⟩ := temporaryName_spec taken
  obtain ⟨n', heq', hfree', hbefore'⟩ := temporaryName_spec taken'
  obtain rfl : n = n' := by
    rcases Nat.lt_trichotomy n n' with hlt | hn | hlt
    · exact absurd ((h _).mpr (hbefore' n hlt)) hfree
    · exact hn
    · exact absurd ((h _).mp (hbefore n' hlt)) hfree'
  rw [heq, heq']

/-- A name that temporary files have: it starts with `.tmp` and has no ending. -/
def IsTemporary (name : String) : Prop := ∃ rest : String, name = ".tmp" ++ rest ∧ '.' ∉ rest.toList

theorem isTemporary_temporaryName (taken : List String) : IsTemporary (temporaryName taken) := by
  obtain ⟨n, heq, -, -⟩ := temporaryName_spec taken
  refine ⟨toString n, heq, fun hpoint => ?_⟩
  have hdigits : (toString n).toList = Nat.toDigits 10 n := Nat.toList_repr
  rw [hdigits] at hpoint
  have hdigit : '.'.isDigit = true := Nat.isDigit_of_mem_toDigits (by omega) (by omega) hpoint
  exact absurd hdigit (by decide)

theorem entry?_concat (t : FileTree) (directory : List String) (name : String) :
    t.entry? (directory ++ [name]) = (entriesOf (t.entry? directory)).lookup name := by
  induction directory generalizing t with
  | nil => rfl
  | cons above directory ih =>
      cases directory with
      | nil => rfl
      | cons next directory => exact ih (entriesOf (t.lookup above))

/-- The names in a directory are those of what stands in it. -/
theorem mem_entriesOf_iff (t : FileTree) (directory : List String) (name : String) :
    name ∈ (entriesOf (t.entry? directory)).map (·.1) ↔ t.look (directory ++ [name]) ≠ none := by
  rw [ne_eq, ← entry?_eq_none_iff, entry?_concat, ← ne_eq, ← Option.isSome_iff_ne_none,
    List.lookup_isSome_iff, List.mem_map]
  refine exists_congr fun e => and_congr_right fun _ => ?_
  rw [beq_iff_eq, eq_comm]

/-- Nothing has the name of the temporary file. -/
theorem look_temporaryName (t : FileTree) (directory : List String) :
    t.look (directory ++ [temporaryName ((entriesOf (t.entry? directory)).map (·.1))]) = none := by
  by_contra hthere
  exact temporaryName_notMem _ ((mem_entriesOf_iff t directory _).mpr hthere)

/-- A temporary file that is taken away leaves the rest as it is. -/
private theorem look_cleanup {temporary : String}
    (hsame : ∀ q, q ≠ directory ++ [temporary] → u.look q = t.look q)
    (hnone : t.look (directory ++ [temporary]) = none)
    (hfree : u.look (directory ++ [temporary]) ≠ some (.directory [])) :
    look (if u.hasDirectory directory then u.erase (directory ++ [temporary]) else u) q =
      t.look q := by
  split
  · rw [look_erase_of_ne hfree]
    split
    · next hq => rw [hq, hnone]
    · next hq => exact hsame q hq
  · next hdir =>
    by_cases hq : q = directory ++ [temporary]
    · rw [hq, hnone]
      cases hlook : u.look (directory ++ [temporary]) with
      | none => rfl
      | some e => exact absurd (hasDirectory_iff.mpr (look_of_append hlook (by simp))) hdir
    · exact hsame q hq

/-- The file is written to the temporary place and moved. On a failure something may be left
at the temporary place. -/
theorem look_replace {temporary : String}
    (hnone : t.look (directory ++ [temporary]) = none) {failure : Option FileError}
    (h : perform [.write (directory ++ [temporary]) [], .write (directory ++ [temporary]) content,
      .rename (directory ++ [temporary]) (directory ++ [name])] t = (failure, u)) :
    if failure = none then
      IsShort name ∧
        ∀ q, u.look q = if q = directory ++ [name] then some (.file content) else t.look q
    else
      (∀ q, q ≠ directory ++ [temporary] → u.look q = t.look q) ∧
        u.look (directory ++ [temporary]) ≠ some (.directory []) := by
  simp only [perform] at h
  split at h
  · next t₁ h₁ =>
    have hlook₁ := fun q => look_write (q := q) h₁
    split at h
    · next t₂ h₂ =>
      have hlook₂ := fun q => look_write (q := q) h₂
      have hfile : t₂.look (directory ++ [temporary]) = some (.file content) := by
        rw [hlook₂, if_pos rfl]
      split at h
      · next t₃ h₃ =>
        obtain ⟨rfl, rfl⟩ := Prod.mk.inj h
        obtain ⟨hshort, hlook₃⟩ := look_rename h₃ hfile
        rw [if_pos rfl]
        refine ⟨hshort, fun q => ?_⟩
        rw [hlook₃, hlook₂, hlook₁]
        by_cases hq : q = directory ++ [temporary]
        · simp [hq, hnone]
        · simp [hq]
      · obtain ⟨rfl, rfl⟩ := Prod.mk.inj h
        rw [if_neg (by simp)]
        refine ⟨fun q hq => ?_, by rw [hfile]; simp⟩
        rw [hlook₂, if_neg hq, hlook₁, if_neg hq]
    · obtain ⟨rfl, rfl⟩ := Prod.mk.inj h
      rw [if_neg (by simp)]
      refine ⟨fun q hq => ?_, by rw [hlook₁, if_pos rfl]; simp⟩
      rw [hlook₁, if_neg hq]
  · obtain ⟨rfl, rfl⟩ := Prod.mk.inj h
    rw [if_neg (by simp)]
    exact ⟨fun _ _ => rfl, by rw [hnone]; simp⟩

/-! ## The whole write -/

/-- **A write changes the file that is to be written if it succeeds, and nothing else,** but
that directories above the file may have been made. -/
theorem look_writeAtomic (directory : List String) (name : String) (content : Bytes)
    (t : FileTree) : ∃ u, Grown directory t u ∧
      ((writeAtomic directory name content t).1 = none → IsShort name) ∧
      ∀ q, look (writeAtomic directory name content t).2 q =
        if (writeAtomic directory name content t).1 = none ∧ q = directory ++ [name]
          then some (.file content) else u.look q := by
  rw [writeAtomic]
  set temporary := temporaryName ((entriesOf (t.entry? directory)).map (·.1))
  have hgrown : Grown directory t (perform ((directoriesTo directory).map .makeDirectory) t).2 :=
    grown_perform (fun _ => prefix_of_mem_directoriesTo) t
  simp only [atomicSteps, perform_append]
  generalize perform ((directoriesTo directory).map .makeDirectory) t = made at hgrown
  obtain ⟨failure, u⟩ := made
  have hnone : u.look (directory ++ [temporary]) = none :=
    (hgrown.look_below temporary).trans (look_temporaryName t directory)
  refine ⟨u, hgrown, ?_⟩
  cases failure with
  | some e =>
      simp only [reduceCtorEq, false_and, if_false, IsEmpty.forall_iff, true_and]
      exact fun q => look_cleanup (fun _ _ => rfl) hnone (by rw [hnone]; simp)
  | none =>
      generalize hreplace : perform [.write (directory ++ [temporary]) [],
        .write (directory ++ [temporary]) content,
        .rename (directory ++ [temporary]) (directory ++ [name])] u = replaced
      obtain ⟨failure, v⟩ := replaced
      have hlook := look_replace hnone hreplace
      simp only [hreplace]
      cases failure with
      | none => simpa using hlook
      | some e =>
          rw [if_neg (by simp)] at hlook
          simp only [reduceCtorEq, false_and, if_false, IsEmpty.forall_iff, true_and]
          exact fun q => look_cleanup hlook.1 hnone hlook.2

/-- The content of the file that stands at a path. -/
def fileAt (t : FileTree) (path : List String) : Option Bytes :=
  (t.look path).bind Entry.content?

theorem fileAt_eq_some_iff : t.fileAt path = some content ↔
    t.look path = some (.file content) := by
  rw [fileAt]
  cases t.look path with
  | none => simp
  | some e => cases e <;> simp [Entry.content?]

/-- A file that is in what is taken away is gone, and no other. -/
theorem fileAt_erase (t : FileTree) (directory : List String) (name : String) (q : List String) :
    fileAt (erase (directory ++ [name]) t) q =
      if directory ++ [name] <+: q then none else t.fileAt q := by
  rw [fileAt, look_erase]
  split <;> rfl

/-- A file that is taken away is gone, and no other. -/
theorem fileAt_erase_of_ne (h : t.look (directory ++ [name]) ≠ some (.directory [])) :
    fileAt (erase (directory ++ [name]) t) q =
      if q = directory ++ [name] then none else t.fileAt q := by
  rw [fileAt, look_erase_of_ne h]
  split <;> rfl

/-- Nothing that is taken away leaves a link. -/
theorem look_link_of_erase {target : String} (t : FileTree)
    (h : look (erase (directory ++ [name]) t) q = some (.link target)) :
    t.look q = some (.link target) := by
  rw [look_erase] at h
  split at h
  · simp at h
  · exact h

theorem Grown.fileAt_eq (h : Grown above t u) (q : List String) : u.fileAt q = t.fileAt q := by
  rw [fileAt, fileAt]
  rcases h q with heq | ⟨-, hnone, hdir, -⟩
  · rw [heq]
  · rw [hnone, hdir]
    rfl

/-- **No other file is changed by a write, and no file at all by one that fails.** -/
theorem fileAt_writeAtomic (directory : List String) (name : String) (content : Bytes)
    (t : FileTree) (q : List String) :
    fileAt (writeAtomic directory name content t).2 q =
      if (writeAtomic directory name content t).1 = none ∧ q = directory ++ [name]
        then some content else t.fileAt q := by
  obtain ⟨u, hgrown, -, hlook⟩ := look_writeAtomic directory name content t
  rw [← hgrown.fileAt_eq q, fileAt, hlook]
  split <;> rfl

/-- No link is made. -/
theorem look_link_of_writeAtomic {target : String}
    (h : look (writeAtomic directory name content t).2 q = some (.link target)) :
    t.look q = some (.link target) := by
  obtain ⟨u, hgrown, -, hlook⟩ := look_writeAtomic directory name content t
  rw [hlook] at h
  split at h
  · simp at h
  · rcases hgrown q with heq | ⟨-, -, hdir, -⟩
    · rw [← heq, h]
    · simp [hdir] at h

/-- What was not there before has a name that is not too long. -/
theorem isShort_of_writeAtomic (h : look (writeAtomic directory name content t).2 q ≠ none)
    (hnew : t.look q = none) : IsShort (q.getLastD "") := by
  obtain ⟨u, hgrown, hname, hlook⟩ := look_writeAtomic directory name content t
  rw [hlook] at h
  split at h
  · next hq =>
    obtain ⟨hok, rfl⟩ := hq
    rw [List.getLastD_concat]
    exact hname hok
  · rcases hgrown q with heq | ⟨-, -, -, hshort⟩
    · exact absurd (heq.trans hnew) h
    · exact hshort

end FileTree

end Distill
