import Distill.Definition.NodeSet
import Mathlib.Data.List.Induction
import Mathlib.Data.List.Nodup

/-!
# Nodes by name

The table of a set agrees with its nodes, so the place of a name is the one at which its node
stands, and no other name has a place. Hence different nodes have different names, and a set is
determined by its nodes. Any nodes of different names are a set.

## Main definitions

* `Definition.NodeSet.ofDistinct` — the set of nodes whose names are different.

## Main statements

* `Definition.NodeSet.indexOf?_eq_some_iff`, `indexOf?_eq_none_iff` — the places of names.
* `Definition.NodeSet.distinct` — nodes have different names.
* `Definition.NodeSet.eq_of_nodes` — a set is determined by its nodes.
-/

namespace Distill

variable {α : Type} {es fs : List (String × α)} {key : String}

/-- A key under which something is found is the key of an entry. -/
theorem mem_keys_of_lookup {v : α} (h : es.lookup key = some v) : key ∈ es.map (·.1) := by
  obtain ⟨before, after, rfl, -⟩ := List.lookup_eq_some_iff.mp h
  simp

/-- Nothing is found under a key that is less than all keys. -/
theorem lookup_eq_none_of_lt (h : ∀ a ∈ es.map (·.1), key < a) : es.lookup key = none := by
  rw [Option.eq_none_iff_forall_ne_some]
  intro v hv
  exact String.lt_irrefl key (h key (mem_keys_of_lookup hv))

/-- Entries in ascending order are determined by what is found in them. -/
theorem Ascending.eq_of_lookup (hes : Ascending es) (hfs : Ascending fs)
    (h : ∀ key, es.lookup key = fs.lookup key) : es = fs := by
  induction es generalizing fs with
  | nil =>
      cases fs with
      | nil => rfl
      | cons f fs =>
          have hf := h f.1
          rw [List.lookup_cons_self] at hf
          cases hf
  | cons e es ih =>
      cases fs with
      | nil =>
          have he := h e.1
          rw [List.lookup_cons_self] at he
          cases he
      | cons f fs =>
          obtain ⟨k, v⟩ := e
          obtain ⟨l, w⟩ := f
          rw [Ascending, List.map_cons, List.pairwise_cons] at hes hfs
          -- The first key of each list is found in the other, so that neither is less.
          have hkl : k = l := by
            have hk := h k
            have hl := h l
            rw [List.lookup_cons_self] at hk hl
            rcases List.mem_cons.mp (mem_keys_of_lookup hk.symm) with heq | hin
            · exact heq
            · rcases List.mem_cons.mp (mem_keys_of_lookup hl) with heq | hin'
              · exact heq.symm
              · exact absurd (String.lt_trans (hfs.1 k hin) (hes.1 l hin')) (String.lt_irrefl l)
          subst hkl
          have hvw : v = w := by simpa using h k
          have hrest : es = fs := by
            refine ih hes.2 hfs.2 fun key => ?_
            by_cases hkey : key = k
            · subst hkey
              rw [lookup_eq_none_of_lt hes.1, lookup_eq_none_of_lt hfs.1]
            · have hlookup := h key
              rwa [List.lookup_cons, List.lookup_cons, beq_eq_false_iff_ne.mpr hkey] at hlookup
          rw [hvw, hrest]

namespace Definition.NodeSet

variable {s s' : NodeSet} {a : String} {k : Nat}

/-- **The place of a name is where it stands.** -/
theorem indexOf?_eq_some_iff : s.indexOf? a = some k ↔ s.names[k]? = some a :=
  s.indexed.lookup_iff a k

theorem exists_indexOf? (h : a ∈ s.names) : ∃ k, s.indexOf? a = some k := by
  obtain ⟨k, hk⟩ := List.mem_iff_getElem?.mp h
  exact ⟨k, indexOf?_eq_some_iff.mpr hk⟩

theorem indexOf?_eq_none_iff : s.indexOf? a = none ↔ a ∉ s.names := by
  constructor
  · intro hnone hmem
    obtain ⟨k, hk⟩ := exists_indexOf? hmem
    simp [hnone] at hk
  · intro hnot
    rw [Option.eq_none_iff_forall_ne_some]
    intro k hk
    exact hnot (List.mem_of_getElem? (indexOf?_eq_some_iff.mp hk))

theorem lt_of_indexOf? (h : s.indexOf? a = some k) : k < s.size := by
  obtain ⟨hk, -⟩ := List.getElem?_eq_some_iff.mp (indexOf?_eq_some_iff.mp h)
  rwa [names, List.length_map] at hk

theorem contains_iff : s.contains a = true ↔ a ∈ s.names := by
  rw [contains, Option.isSome_iff_ne_none, ne_eq, indexOf?_eq_none_iff, not_not]

/-- **Different nodes have different names:** each name has one place. -/
theorem distinct (s : NodeSet) : (s.nodes.map Node.name).Nodup := by
  rw [List.nodup_iff_getElem?_ne_getElem?]
  intro i k hik hk heq
  have hname := List.getElem?_eq_getElem hk
  have hplace := indexOf?_eq_some_iff.mpr hname
  rw [indexOf?_eq_some_iff.mpr (heq.trans hname)] at hplace
  exact absurd (Option.some.inj hplace) (by omega)

/-- **A set is determined by its nodes.** -/
theorem eq_of_nodes (h : s.nodes = s'.nodes) : s = s' := by
  obtain ⟨nodes, places, hindexed⟩ := s
  obtain ⟨nodes', places', hindexed'⟩ := s'
  obtain rfl : nodes = nodes' := h
  have hplaces : places = places' := by
    refine hindexed.ascending.eq_of_lookup hindexed'.ascending fun name => ?_
    refine Option.ext fun i => ?_
    rw [hindexed.lookup_iff, hindexed'.lookup_iff]
  subst hplaces
  rfl

/-! ## Sets of given nodes -/

/-- The table of the places of nodes. -/
def tableOf (nodes : List Node) : List (String × Nat) :=
  nodes.zipIdx.foldl (fun places n => insertKey n.1.name n.2 places) []

theorem indexed_tableOf {nodes : List Node} (h : (nodes.map Node.name).Nodup) :
    Indexed nodes (tableOf nodes) := by
  induction nodes using List.reverseRecOn with
  | nil => exact .nil
  | append_singleton nodes n ih =>
      rw [List.map_append, List.nodup_append] at h
      have hfree : (tableOf nodes).lookup n.name = none := by
        rw [Option.eq_none_iff_forall_ne_some]
        intro i hi
        have hmem := List.mem_of_getElem? (((ih h.1).lookup_iff n.name i).mp hi)
        exact h.2.2 _ hmem _ (List.mem_singleton_self _) rfl
      have htable : tableOf (nodes ++ [n]) = insertKey n.name nodes.length (tableOf nodes) := by
        rw [tableOf, List.zipIdx_append, List.foldl_append, Nat.zero_add]
        rfl
      rw [htable]
      exact (ih h.1).insert hfree

/-- The set of nodes whose names are different. -/
def ofDistinct (nodes : List Node) (h : (nodes.map Node.name).Nodup) : NodeSet :=
  ⟨nodes, tableOf nodes, indexed_tableOf h⟩

end Definition.NodeSet

end Distill
