import Distill.Proofs.Files.Ordered
import Distill.Proofs.Files.Reading
import Mathlib.Data.List.Induction

/-!
# Operations that succeed

On a way on which only directories stand, an operation can fail in one way only: a name is too
long.

## Main definitions

* `FileTree.Clear` — only directories stand on the way to a path.
* `FileTree.Possible` — what stands there has names that are not too long.

## Main statements

* `FileTree.resolve_of_clear` — a path at which nothing stands.
* `FileTree.writeAtomic_fst` — when a write succeeds.
-/

namespace Distill

namespace FileTree

variable {t u : FileTree} {name temporary : String} {directory here path rest : List String}
  {content : Bytes}

/-- Nothing but directories stands at a path and on the way to it. -/
def Clear (t : FileTree) (path : List String) : Prop :=
  ∀ q, q <+: path → t.look q = none ∨ t.look q = some (.directory [])

/-- What stands at a path has names that are not too long. -/
def Possible (t : FileTree) : Prop := ∀ q, t.look q ≠ none → ∀ name ∈ q, IsShort name

theorem Clear.of_prefix {q : List String} (h : t.Clear path) (hq : q <+: path) : t.Clear q :=
  fun r hr => h r (hr.trans hq)

/-- It is enough that the last name of each path is not too long. -/
theorem possible_of_getLastD (h : ∀ q, t.look q ≠ none → IsShort (q.getLastD "")) :
    t.Possible := by
  intro q hq name hname
  obtain ⟨before, after, rfl⟩ := List.append_of_mem hname
  rw [List.append_cons] at hq
  rw [← List.getLastD_concat (a := "") (b := name) (l := before)]
  refine h _ ?_
  cases after with
  | nil => rwa [List.append_nil] at hq
  | cons next after =>
      obtain ⟨e, he⟩ := Option.ne_none_iff_exists'.mp hq
      rw [look_of_append he (by simp)]
      simp

theorem Possible.getLastD {q : List String} (h : t.Possible) (hq : t.look q ≠ none) :
    IsShort (q.getLastD "") := by
  rcases List.eq_nil_or_concat q with rfl | ⟨above, last, rfl⟩
  · exact Nat.zero_le _
  · rw [List.concat_eq_append] at hq ⊢
    rw [List.getLastD_concat]
    exact h (above ++ [last]) hq last (by simp)

theorem Possible.writeAtomic (h : t.Possible) (directory : List String) (name : String)
    (content : Bytes) : Possible (writeAtomic directory name content t).2 := by
  refine possible_of_getLastD fun q hq => ?_
  cases hnew : t.look q with
  | none => exact isShort_of_writeAtomic hq hnew
  | some e => exact h.getLastD (by simp [hnew])

theorem Possible.erase (h : t.Possible) (directory : List String) (name : String) :
    Possible (erase (directory ++ [name]) t) := by
  intro q hq
  rw [look_erase] at hq
  split at hq
  · exact absurd rfl hq
  · exact h q hq

/-! ## Looking for what is not there -/

/-- A way on which only directories stand leads to the first that is missing. -/
theorem walk_of_clear (hordinary : ∀ name ∈ rest, IsOrdinary name)
    (hclear : t.Clear (here ++ rest)) (hhere : t.look here = some (.directory []))
    (hnone : t.look (here ++ rest) = none) :
    walk t here rest = .error .notFound ∨
      (∃ name ∈ rest, ¬ IsShort name) ∧ walk t here rest = .error .nameTooLong := by
  induction rest generalizing here with
  | nil =>
      rw [List.append_nil, hhere] at hnone
      simp at hnone
  | cons name rest ih =>
      obtain ⟨hpoint, hpoints⟩ := hordinary name (by simp)
      have hassoc : here ++ name :: rest = here ++ [name] ++ rest := by simp
      rw [walk, if_neg hpoint, if_neg hpoints]
      by_cases hlong : maxNameLength < name.utf8ByteSize
      · rw [if_pos hlong]
        exact Or.inr ⟨⟨name, by simp, Nat.not_le.mpr hlong⟩, rfl⟩
      · rw [if_neg hlong]
        rw [hassoc] at hclear hnone
        rcases hclear (here ++ [name]) (List.prefix_append _ _) with hmissing | hdir
        · rw [entry?_eq_none_iff.mpr hmissing]
          exact Or.inl rfl
        · have hthere := hasDirectory_iff.mpr hdir
          rw [hasDirectory] at hthere
          split at hthere
          · next es hes =>
            rw [hes]
            refine (ih (fun n hn => hordinary n (by simp [hn])) hclear hdir hnone).imp_right ?_
            rintro ⟨⟨n, hn, hlong'⟩, heq⟩
            exact ⟨⟨n, by simp [hn], hlong'⟩, heq⟩
          · simp at hthere

/-- **What is not there is not found,** unless a name is too long. -/
theorem resolve_of_clear (hordinary : ∀ name ∈ path, IsOrdinary name) (hclear : t.Clear path)
    (hnone : t.look path = none) :
    t.resolve path = .error .notFound ∨
      (∃ name ∈ path, ¬ IsShort name) ∧ t.resolve path = .error .nameTooLong := by
  have hwalk : walk t [] path = .error .notFound ∨
      (∃ name ∈ path, ¬ IsShort name) ∧ walk t [] path = .error .nameTooLong :=
    walk_of_clear hordinary hclear rfl hnone
  rw [resolve, resolveFrom]
  rcases hwalk with heq | ⟨hlong, heq⟩
  · exact Or.inl (by rw [heq])
  · exact Or.inr ⟨hlong, by rw [heq]⟩

/-- **The names in a directory** are those of what stands in it, in ascending order. -/
theorem names_of_look (hordinary : ∀ name ∈ path, IsOrdinary name) (hpossible : t.Possible)
    (ht : t.Ordered) (hdir : t.look path = some (.directory [])) :
    ∃ names, t.names path = .ok names ∧ names.Pairwise (· < ·) ∧
      ∀ name, name ∈ names ↔ t.look (path ++ [name]) ≠ none := by
  have hresolve := resolve_of_look hordinary (hpossible path (by simp [hdir])) hdir (by simp)
  have hthere := hasDirectory_iff.mpr hdir
  rw [hasDirectory] at hthere
  split at hthere
  · next es hes =>
    have hascending : (es.map (·.1)).Pairwise (· < ·) := ht.ascending_of_entry hes
    refine ⟨es.map (·.1), ?_, hascending, fun name => ?_⟩
    · simp only [names, hresolve, bind, Except.bind, hes]
      rfl
    · rw [← mem_entriesOf_iff, hes, entriesOf]
  · simp at hthere

/-! ## Making directories -/

/-- Where a directory stands and no directory is in the way, an entry may be made unless its
name is too long. -/
theorem checkTarget_eq (hdir : t.look directory = some (.directory []))
    (hfree : t.look (directory ++ [name]) ≠ some (.directory [])) :
    t.checkTarget (directory ++ [name]) =
      if IsShort name then .ok () else .error .nameTooLong := by
  rw [checkTarget, List.dropLast_concat, List.getLastD_concat, hasDirectory_iff.mpr hdir,
    hasDirectory_eq_false_iff.mpr hfree]
  by_cases hname : IsShort name
  · have hnot : ¬ maxNameLength < name.utf8ByteSize := Nat.not_lt.mpr hname
    simp [hname, hnot]
  · have hlong : maxNameLength < name.utf8ByteSize := Nat.not_le.mp hname
    simp [hname, hlong]

theorem directoriesTo_concat (directory : List String) (name : String) :
    directoriesTo (directory ++ [name]) = directoriesTo directory ++ [directory ++ [name]] := by
  rw [directoriesTo, List.length_append, List.length_singleton, List.range_succ, List.map_append,
    List.map_singleton, List.take_of_length_le (by simp)]
  refine congrArg (· ++ _) (List.map_congr_left fun n hn => ?_)
  exact List.take_append_of_le_length (Nat.succ_le_of_lt (List.mem_range.mp hn))

/-- A directory that is not there yet can be made, unless its name is too long. -/
theorem apply_makeDirectory (hdir : t.look directory = some (.directory []))
    (hclear : t.look (directory ++ [name]) = none ∨
      t.look (directory ++ [name]) = some (.directory []))
    (hpossible : t.look (directory ++ [name]) ≠ none → IsShort name) :
    if IsShort name then
      ∃ u, (FileStep.makeDirectory (directory ++ [name])).apply t = .ok u ∧
        u.look (directory ++ [name]) = some (.directory [])
    else (FileStep.makeDirectory (directory ++ [name])).apply t = .error .nameTooLong := by
  rcases hclear with hnone | hthere
  · have hfree : t.look (directory ++ [name]) ≠ some (.directory []) := by simp [hnone]
    rw [FileStep.apply, hasDirectory_eq_false_iff.mpr hfree, checkTarget_eq hdir hfree,
      entry?_eq_none_iff.mpr hnone]
    split
    · refine ⟨_, rfl, ?_⟩
      rw [look_put hdir hfree rfl, if_pos rfl]
      rfl
    · rfl
  · rw [if_pos (hpossible (by simp [hthere]))]
    exact ⟨t, by rw [FileStep.apply, if_pos (hasDirectory_iff.mpr hthere)], hthere⟩

/-- **The directories on a clear way can be made, unless a name is too long.** -/
theorem perform_makeDirectories (hclear : t.Clear directory) (hpossible : t.Possible) :
    ∃ u, perform ((directoriesTo directory).map .makeDirectory) t =
        (if ∀ name ∈ directory, IsShort name then none else some .nameTooLong, u) ∧
      ((∀ name ∈ directory, IsShort name) → u.look directory = some (.directory [])) := by
  induction directory using List.reverseRecOn with
  | nil => exact ⟨t, rfl, fun _ => rfl⟩
  | append_singleton directory name ih =>
      obtain ⟨u, hperform, hmade⟩ := ih (hclear.of_prefix (List.prefix_append _ _))
      have hgrown : Grown directory t
          (perform ((directoriesTo directory).map .makeDirectory) t).2 :=
        grown_perform (fun _ => prefix_of_mem_directoriesTo) t
      rw [hperform] at hgrown
      have hnames : (∀ n ∈ directory ++ [name], IsShort n) ↔
          (∀ n ∈ directory, IsShort n) ∧ IsShort name := by
        simp [or_imp, forall_and]
      rw [directoriesTo_concat, List.map_append, perform_append, hperform]
      by_cases hshort : ∀ n ∈ directory, IsShort n
      · have hsame := hgrown.look_below name
        have hmake := apply_makeDirectory (hmade hshort)
          (hsame ▸ hclear _ (List.prefix_refl _))
          fun hthere => hpossible _ (hsame ▸ hthere) name (by simp)
        rw [if_pos hshort]
        by_cases hname : IsShort name
        · rw [if_pos hname] at hmake
          obtain ⟨v, hv, hlook⟩ := hmake
          refine ⟨v, ?_, fun _ => hlook⟩
          simp only [List.map_singleton, perform, hv]
          rw [if_pos (hnames.mpr ⟨hshort, hname⟩)]
        · rw [if_neg hname] at hmake
          refine ⟨u, ?_, fun h => absurd (hnames.mp h).2 hname⟩
          simp only [List.map_singleton, perform, hmake]
          rw [if_neg fun h => hname (hnames.mp h).2]
      · refine ⟨u, ?_, fun h => absurd (hnames.mp h).1 hshort⟩
        rw [if_neg hshort, if_neg fun h => hshort (hnames.mp h).1]

/-! ## Writing -/

theorem apply_write (hdir : t.look directory = some (.directory []))
    (hfree : t.look (directory ++ [name]) ≠ some (.directory [])) (hname : IsShort name) :
    ∃ u, (FileStep.write (directory ++ [name]) content).apply t = .ok u := by
  rw [FileStep.apply, checkTarget_eq hdir hfree, if_pos hname]
  exact ⟨_, rfl⟩

/-- A file can be moved within its directory, unless its new name is too long. -/
theorem apply_rename (hdir : t.look directory = some (.directory []))
    (hfree : t.look (directory ++ [name]) ≠ some (.directory []))
    (hsource : t.look (directory ++ [temporary]) = some (.file content)) :
    if IsShort name then
      ∃ u, (FileStep.rename (directory ++ [temporary]) (directory ++ [name])).apply t = .ok u
    else (FileStep.rename (directory ++ [temporary]) (directory ++ [name])).apply t =
      .error .nameTooLong := by
  rw [FileStep.apply, checkTarget_eq hdir hfree, entry?_eq_file_iff.mpr hsource]
  split
  · exact ⟨_, rfl⟩
  · rfl

/-- The temporary file gets the first of its names, if that is not taken. -/
theorem temporaryName_eq {taken : List String} (h : ".tmp0" ∉ taken) :
    temporaryName taken = ".tmp0" := by
  have hfirst : ".tmp" ++ toString 0 = ".tmp0" := by decide
  rw [temporaryName, List.range_succ_eq_map, List.map_cons, hfirst]
  simp [h]

/-- Once its directory is there, a file can be written by way of a temporary one, unless its
name is too long. -/
theorem perform_replace (hdir : t.look directory = some (.directory []))
    (hfree : t.look (directory ++ [name]) ≠ some (.directory []))
    (hnone : t.look (directory ++ [temporary]) = none) (htemporary : IsShort temporary)
    (content : Bytes) :
    (perform [.write (directory ++ [temporary]) [], .write (directory ++ [temporary]) content,
      .rename (directory ++ [temporary]) (directory ++ [name])] t).1 =
        if IsShort name then none else some .nameTooLong := by
  have hne : directory ≠ directory ++ [temporary] := by simp
  obtain ⟨t₁, h₁⟩ : ∃ u, (FileStep.write (directory ++ [temporary]) []).apply t = .ok u :=
    apply_write hdir (by simp [hnone]) htemporary
  have hlook₁ := fun q => look_write (q := q) h₁
  have hdir₁ : t₁.look directory = some (.directory []) := by rw [hlook₁, if_neg hne, hdir]
  obtain ⟨t₂, h₂⟩ : ∃ u, (FileStep.write (directory ++ [temporary]) content).apply t₁ = .ok u :=
    apply_write hdir₁ (by simp [hlook₁]) htemporary
  have hlook₂ := fun q => look_write (q := q) h₂
  have hdir₂ : t₂.look directory = some (.directory []) := by rw [hlook₂, if_neg hne, hdir₁]
  have hfile₂ : t₂.look (directory ++ [temporary]) = some (.file content) := by
    rw [hlook₂, if_pos rfl]
  have hfree₂ : t₂.look (directory ++ [name]) ≠ some (.directory []) := by
    rw [hlook₂, hlook₁]
    split
    · simp
    · exact hfree
  have hmove := apply_rename hdir₂ hfree₂ hfile₂
  simp only [perform, h₁, h₂]
  by_cases hname : IsShort name
  · rw [if_pos hname] at hmove
    obtain ⟨t₃, h₃⟩ := hmove
    simp [h₃, hname]
  · rw [if_neg hname] at hmove
    simp [hmove, hname]

/-- **On a clear way a write succeeds, unless a name is too long.** -/
theorem writeAtomic_fst (hclear : t.Clear directory) (hpossible : t.Possible)
    (hfree : t.look (directory ++ [name]) ≠ some (.directory []))
    (hnone : t.look (directory ++ [".tmp0"]) = none) (content : Bytes) :
    (writeAtomic directory name content t).1 =
      if ∀ n ∈ directory ++ [name], IsShort n then none else some .nameTooLong := by
  have htaken : ".tmp0" ∉ (entriesOf (t.entry? directory)).map (·.1) := by
    rwa [mem_entriesOf_iff, not_not]
  have hnames : (∀ n ∈ directory ++ [name], IsShort n) ↔
      (∀ n ∈ directory, IsShort n) ∧ IsShort name := by
    simp [or_imp, forall_and]
  obtain ⟨u, hperform, hmade⟩ := perform_makeDirectories hclear hpossible
  have hgrown : Grown directory t (perform ((directoriesTo directory).map .makeDirectory) t).2 :=
    grown_perform (fun _ => prefix_of_mem_directoriesTo) t
  rw [hperform] at hgrown
  rw [writeAtomic, temporaryName_eq htaken, atomicSteps, perform_append, hperform]
  by_cases hshort : ∀ n ∈ directory, IsShort n
  · have hfree' : u.look (directory ++ [name]) ≠ some (.directory []) :=
      hgrown.look_below name ▸ hfree
    have hnone' : u.look (directory ++ [".tmp0"]) = none :=
      (hgrown.look_below ".tmp0").trans hnone
    have hreplace := perform_replace (hmade hshort) hfree' hnone' (by decide) content
    have hboth : (∀ n ∈ directory ++ [name], IsShort n) ↔ IsShort name :=
      hnames.trans (and_iff_right hshort)
    rw [if_pos hshort]
    simp only [hboth]
    rw [← hreplace]
    generalize perform _ u = done
    obtain ⟨failure, v⟩ := done
    cases failure <;> rfl
  · rw [if_neg hshort, if_neg fun h => hshort (hnames.mp h).1]

end FileTree

end Distill
