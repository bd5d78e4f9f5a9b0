import Distill.Proofs.Files.Look

/-!
# Ordered trees of files

In a tree that is built from the empty one by operations, the names in every directory are
strictly ascending, so that each stands there once.

## Main definitions

* `FileTree.Ordered` — the names in the root and in every directory below it are ascending.

## Main statements

* `FileTree.Ordered.writeAtomic`, `FileTree.Ordered.erase` — operations keep a tree ordered.
* `FileTree.Ordered.ascending_of_entry` — the names in a directory.
-/

namespace Distill

mutual

/-- The names in every directory at or below an entry are ascending. -/
def Entry.Ordered : Entry → Prop
  | .directory es => Ascending es ∧ FileTree.OrderedBelow es
  | _ => True

/-- The names in every directory at or below some entries are ascending. -/
def FileTree.OrderedBelow : List (String × Entry) → Prop
  | [] => True
  | (_, e) :: rest => e.Ordered ∧ FileTree.OrderedBelow rest

end

namespace FileTree

variable {t t' : FileTree} {name : String} {path : List String} {e : Entry}

/-- The names in the root and in every directory below it are ascending. -/
def Ordered (t : FileTree) : Prop := Ascending t ∧ OrderedBelow t

theorem ordered_directory : (Entry.directory t).Ordered ↔ t.Ordered := by
  rw [Entry.Ordered, Ordered]

theorem orderedBelow_iff : OrderedBelow t ↔ ∀ x ∈ t, x.2.Ordered := by
  induction t with
  | nil => simp [OrderedBelow]
  | cons x rest ih =>
      rw [OrderedBelow, ih]
      simp

theorem ordered_nil : Ordered [] := ⟨List.Pairwise.nil, trivial⟩

theorem ordered_entriesOf {o : Option Entry} (h : ∀ e ∈ o, e.Ordered) :
    Ordered (entriesOf o) := by
  cases o with
  | none => exact ordered_nil
  | some e =>
      cases e with
      | directory es => exact ordered_directory.mp (h _ rfl)
      | file | link => exact ordered_nil

/-! ## Entries of ordered trees -/

theorem Ordered.of_lookup (ht : t.Ordered) (h : t.lookup name = some e) : e.Ordered := by
  have hmem : (name, e) ∈ t := by
    clear ht
    induction t with
    | nil => simp at h
    | cons x rest ih => grind
  exact orderedBelow_iff.mp ht.2 _ hmem

theorem Ordered.of_entry (ht : t.Ordered) (h : t.entry? path = some e) : e.Ordered := by
  induction path generalizing t with
  | nil =>
      rw [← Option.some.inj h]
      exact ordered_directory.mpr ht
  | cons name rest ih =>
      cases rest with
      | nil => exact ht.of_lookup h
      | cons next rest =>
          exact ih (ordered_entriesOf fun _ he => ht.of_lookup he) h

/-- **The names in a directory are ascending.** -/
theorem Ordered.ascending_of_entry (ht : t.Ordered) {es : FileTree}
    (h : t.entry? path = some (.directory es)) : Ascending es :=
  (ordered_directory.mp (ht.of_entry h)).1

/-! ## Operations -/

theorem mem_insertKey {x : String × Entry} (h : x ∈ insertKey name e t) :
    x = (name, e) ∨ x ∈ t := by
  induction t with
  | nil => exact Or.inl (by simpa [insertKey] using h)
  | cons y rest ih =>
      rw [insertKey] at h
      split at h
      · exact List.mem_cons.mp h
      · split at h
        · exact (List.mem_cons.mp h).imp_right fun hx => List.mem_cons_of_mem _ hx
        · rcases List.mem_cons.mp h with rfl | hx
          · exact Or.inr List.mem_cons_self
          · exact (ih hx).imp_right fun hx => List.mem_cons_of_mem _ hx

theorem Ordered.insertKey (ht : t.Ordered) (he : e.Ordered) : Ordered (insertKey name e t) := by
  refine ⟨ht.1.insertKey, orderedBelow_iff.mpr fun x hx => ?_⟩
  rcases mem_insertKey hx with rfl | hx
  · exact he
  · exact orderedBelow_iff.mp ht.2 x hx

theorem Ordered.put (ht : t.Ordered) (he : e.Ordered) : Ordered (put path e t) := by
  induction path generalizing t with
  | nil => exact ht
  | cons name rest ih =>
      cases rest with
      | nil => exact ht.insertKey he
      | cons next rest =>
          refine ht.insertKey (ordered_directory.mpr (ih ?_))
          exact ordered_entriesOf fun _ he => ht.of_lookup he

theorem Ordered.erase (ht : t.Ordered) (path : List String) : Ordered (erase path t) := by
  induction path generalizing t with
  | nil => exact ht
  | cons name rest ih =>
      cases rest with
      | nil =>
          refine ⟨?_, orderedBelow_iff.mpr fun x hx => ?_⟩
          · exact ht.1.sublist (List.filter_sublist.map _)
          · exact orderedBelow_iff.mp ht.2 x (List.mem_of_mem_filter hx)
      | cons next rest =>
          rw [erase_cons (by simp)]
          split
          · next es hes =>
            exact ht.insertKey (ordered_directory.mpr (ih (ordered_directory.mp (ht.of_lookup hes))))
          · exact ht

theorem Ordered.apply {s : FileStep} (ht : t.Ordered) (h : s.apply t = .ok t') : t'.Ordered := by
  have hbind : ∀ {check : Except FileError Unit} {u : Except FileError FileTree},
      (check >>= fun _ => u) = .ok t' → u = .ok t' := by
    intro check u hu
    cases check with
    | error _ => simp [bind, Except.bind] at hu
    | ok _ => exact hu
  cases s with
  | makeDirectory path =>
      rw [FileStep.apply] at h
      split at h
      · rwa [← Except.ok.inj h]
      · have hput := hbind h
        split at hput
        · simp [throw, throwThe, MonadExceptOf.throw, bind, Except.bind] at hput
        · rw [← Except.ok.inj hput]
          exact ht.put (ordered_directory.mpr ordered_nil)
  | write path content =>
      rw [← Except.ok.inj (hbind h)]
      exact ht.put trivial
  | rename source target =>
      have hmove := hbind h
      split at hmove
      · next e he =>
        rw [← Except.ok.inj hmove]
        exact (ht.erase source).put (ht.of_entry he)
      · simp [throw, throwThe, MonadExceptOf.throw] at hmove
  | remove path =>
      rw [FileStep.apply] at h
      split at h
      · simp at h
      · rw [← Except.ok.inj h]
        exact ht.erase path
      · simp at h

theorem Ordered.perform (ht : t.Ordered) (steps : List FileStep) :
    Ordered (perform steps t).2 := by
  induction steps generalizing t with
  | nil => exact ht
  | cons s steps ih =>
      rw [FileTree.perform]
      split
      · next u hu => exact ih (ht.apply hu)
      · exact ht

/-- **A write keeps a tree ordered,** whether it succeeds or not. -/
theorem Ordered.writeAtomic (ht : t.Ordered) (directory : List String) (name : String)
    (content : Bytes) : Ordered (writeAtomic directory name content t).2 := by
  rw [FileTree.writeAtomic]
  have hperform := ht.perform (atomicSteps directory name
    (temporaryName ((entriesOf (t.entry? directory)).map (·.1))) content)
  generalize FileTree.perform (atomicSteps directory name
    (temporaryName ((entriesOf (t.entry? directory)).map (·.1))) content) t = done at hperform
  obtain ⟨failure, u⟩ := done
  cases failure with
  | none => exact hperform
  | some e =>
      simp only
      split
      · exact hperform.erase _
      · exact hperform

end FileTree

end Distill
