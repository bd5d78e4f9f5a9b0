/-!
# Lists with keys

Fields of objects, bindings of placeholders and entries of directories are lists of
pairs whose keys are strictly ascending.

## Main definitions

* `insertKey` — put an entry where its key belongs, in place of one with the same key.
* `sortKeys` — entries in ascending order of their keys, the last of equal keys winning.
* `Ascending` — the order law.
-/

namespace Distill

variable {α : Type}

/-- Put an entry where its key belongs, in place of one with the same key. -/
def insertKey (key : String) (v : α) : List (String × α) → List (String × α)
  | [] => [(key, v)]
  | (k, w) :: rest =>
    if key < k then (key, v) :: (k, w) :: rest
    else if key = k then (key, v) :: rest
    else (k, w) :: insertKey key v rest

/-- The entries in ascending order of their keys, the last of equal keys winning. -/
def sortKeys (entries : List (String × α)) : List (String × α) :=
  entries.foldl (fun acc e => insertKey e.1 e.2 acc) []

/-- The keys are strictly ascending. -/
def Ascending (entries : List (String × α)) : Prop := (entries.map (·.1)).Pairwise (· < ·)

/-- The value that is put under a key is found there, and every other key has the value
that it had. -/
theorem lookup_insertKey (key other : String) (v : α) (entries : List (String × α)) :
    (insertKey key v entries).lookup other =
      if other = key then some v else entries.lookup other := by
  induction entries with
  | nil => grind [insertKey]
  | cons e rest ih => grind [insertKey]

/-- The keys are those there were and the one that is put. -/
theorem mem_keys_insertKey {key k : String} {v : α} {entries : List (String × α)} :
    k ∈ (insertKey key v entries).map (·.1) ↔ k = key ∨ k ∈ entries.map (·.1) := by
  induction entries with
  | nil => simp [insertKey]
  | cons e rest ih =>
    obtain ⟨l, w⟩ := e
    simp only [insertKey]
    split
    · simp
    · split
      · next h => subst h; simp
      · simp only [List.map_cons, List.mem_cons, ih]
        grind

/-- Putting an entry where its key belongs keeps the order. -/
theorem Ascending.insertKey {key : String} {v : α} {entries : List (String × α)}
    (h : Ascending entries) : Ascending (insertKey key v entries) := by
  induction entries with
  | nil => simp [Ascending, Distill.insertKey]
  | cons e rest ih =>
    obtain ⟨l, w⟩ := e
    unfold Ascending at h ih ⊢
    simp only [List.map_cons, List.pairwise_cons] at h
    simp only [Distill.insertKey]
    split
    · next hk =>
      simp only [List.map_cons, List.pairwise_cons, h.2, and_true]
      refine ⟨?_, h.1⟩
      intro k hk'
      rcases List.mem_cons.1 hk' with rfl | hk'
      · exact hk
      · exact String.lt_trans hk (h.1 k hk')
    · split
      · next hkl => subst hkl; simpa using h
      · next hlt hne =>
        simp only [List.map_cons, List.pairwise_cons]
        refine ⟨?_, ih h.2⟩
        intro k hk
        rcases mem_keys_insertKey.1 hk with rfl | hk
        · grind
        · exact h.1 k hk

/-- Sorted entries are in ascending order. -/
theorem ascending_sortKeys (entries : List (String × α)) : Ascending (sortKeys entries) := by
  suffices h : ∀ acc : List (String × α), Ascending acc →
      Ascending (entries.foldl (fun acc e => insertKey e.1 e.2 acc) acc) by
    exact h [] (by simp [Ascending])
  induction entries with
  | nil => exact fun acc h => h
  | cons e rest ih => exact fun acc h => ih _ h.insertKey

/-- What is put with an entry is the entry itself and what was there. -/
theorem eq_or_mem_of_mem_insertKey {key : String} {v : α} {e : String × α}
    {entries : List (String × α)} (h : e ∈ insertKey key v entries) :
    e = (key, v) ∨ e ∈ entries := by
  induction entries with
  | nil => grind [insertKey]
  | cons f rest ih => grind [insertKey]

/-- Sorting keeps no entry that was not there. -/
theorem mem_of_mem_sortKeys {entries : List (String × α)} {e : String × α}
    (h : e ∈ sortKeys entries) : e ∈ entries := by
  suffices hfold : ∀ acc : List (String × α),
      e ∈ entries.foldl (fun acc e => insertKey e.1 e.2 acc) acc → e ∈ entries ∨ e ∈ acc by
    simpa using hfold [] h
  clear h
  induction entries with
  | nil => exact fun acc => Or.inr
  | cons f rest ih =>
    intro acc hmem
    rcases ih _ hmem with hlate | hearly
    · exact Or.inl (List.mem_cons_of_mem _ hlate)
    · rcases eq_or_mem_of_mem_insertKey hearly with rfl | hearly
      · exact Or.inl List.mem_cons_self
      · exact Or.inr hearly

end Distill
