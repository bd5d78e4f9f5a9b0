import Distill.Proofs.Definition.Places
import Distill.Proofs.Graph.Search
import Distill.Proofs.Results
import Mathlib.Data.List.GetD

/-!
# Sound graphs

What the graph of a set is promised to be: every source is a node, every chain of
sources ends at a root, and the order of evaluation holds every node once, behind its
source. A selection that is closed holds the source of every node that it holds.

## Main definitions

* `Graph.Sound` — the promise.
* `Graph.Closed` — selections that hold the sources of their nodes.

## Main statements

* `Graph.sound_ofSet` — the graph of a set is sound.
* `Graph.closed_closure` — nodes with everything they depend on are a closed selection.
-/

namespace Distill

open Definition (NodeSet)

/-! ## The graph of a set -/

/-- There is one source for each node, and each of them is a node of the set. -/
theorem sourcesOf_spec {s : NodeSet} {ns : List Definition.Node} {sources : List (Option Nat)}
    (h : sourcesOf s ns = .ok sources) :
    sources.length = ns.length ∧ ∀ k, some k ∈ sources → k < s.size := by
  induction ns generalizing sources with
  | nil =>
      simp only [sourcesOf, Except.ok.injEq] at h
      simp [← h]
  | cons n rest ih =>
      rw [sourcesOf] at h
      cases hrest : sourcesOf s rest with
      | error e =>
          rw [hrest] at h
          split at h
          · simp [Except.map] at h
          · split at h <;> simp [Except.map] at h
      | ok tail =>
          obtain ⟨hlen, hlt⟩ := ih hrest
          rw [hrest] at h
          split at h
          · simp only [Except.map, Except.ok.injEq] at h
            subst h
            refine ⟨by simp [hlen], ?_⟩
            intro k hk
            exact hlt k (by simpa using hk)
          · split at h
            · simp at h
            · next i hi =>
              simp only [Except.map, Except.ok.injEq] at h
              subst h
              refine ⟨by simp [hlen], ?_⟩
              intro k hk
              rcases List.mem_cons.mp hk with hk | hk
              · rw [Option.some.inj hk]
                exact NodeSet.lt_of_indexOf? hi
              · exact hlt k hk

/-- Every source is the place of a node. -/
theorem lt_of_sourcesOf {s : NodeSet} {sources : List (Option Nat)}
    (h : sourcesOf s s.nodes = .ok sources) {i k : Nat} (hk : sourceAt sources i = some k) :
    k < sources.length := by
  obtain ⟨hlength, hmem⟩ := sourcesOf_spec h
  rw [hlength]
  rw [sourceAt, Option.join_eq_some_iff] at hk
  exact hmem k (List.mem_of_getElem? hk)

namespace Graph

/-- What a graph is promised to be. -/
structure Sound (g : Graph) : Prop where
  sources_length : g.sources.length = g.size
  source_lt : ∀ {i k}, g.source i = some k → k < g.size
  /-- Every chain of sources ends at a root. -/
  wellFounded : WellFounded (Feeds g.sources)
  /-- The order holds every node once. -/
  order_perm : g.order.Perm (List.range g.size)
  /-- No node stands before its source. -/
  order_pairwise : g.order.Pairwise fun a b => g.source a ≠ some b

variable {g : Graph}

theorem Sound.mem_dependents {i d : Nat} : d ∈ g.dependents i ↔ g.source d = some i :=
  mem_dependentsAt

theorem nodup_dependents (i : Nat) : (g.dependents i).Nodup := nodup_dependentsAt g.sources i

theorem Sound.mem_order (hg : g.Sound) {i : Nat} : i ∈ g.order ↔ i < g.size := by
  rw [hg.order_perm.mem_iff, List.mem_range]

theorem Sound.nodup_order (hg : g.Sound) : g.order.Nodup :=
  hg.order_perm.nodup_iff.mpr List.nodup_range

/-- What makes up the graph of a set. -/
theorem ofSet_eq_ok {s : NodeSet} (h : ofSet s = .ok g) :
    sourcesOf s s.nodes = .ok g.sources ∧ firstCycle g.sources = none ∧
      g.names = s.names ∧ g.order = orderOf g.sources := by
  cases hsources : sourcesOf s s.nodes with
  | error e => simp [ofSet, hsources, bind, Except.bind] at h
  | ok sources =>
      cases hcycle : firstCycle sources with
      | some cycle =>
          simp [ofSet, hsources, hcycle, bind, Except.bind, throw, throwThe,
            MonadExceptOf.throw] at h
      | none =>
          simp only [ofSet, hsources, hcycle, bind, Except.bind, pure, Except.pure,
            Except.ok.injEq] at h
          subst h
          exact ⟨rfl, hcycle, rfl, rfl⟩

theorem size_ofSet {s : NodeSet} (h : ofSet s = .ok g) : g.size = s.size := by
  rw [size, (ofSet_eq_ok h).2.2.1, NodeSet.names, List.length_map, NodeSet.size]

/-- **The graph of a set is sound.** -/
theorem sound_ofSet {s : NodeSet} (h : ofSet s = .ok g) : g.Sound := by
  obtain ⟨hsources, hcycle, hnames, horder⟩ := ofSet_eq_ok h
  have hsize : g.sources.length = g.size := by
    rw [(sourcesOf_spec hsources).1, size_ofSet h, NodeSet.size]
  have hlt : ∀ i k, sourceAt g.sources i = some k → k < g.sources.length :=
    fun _ _ => lt_of_sourcesOf hsources
  have hwf := wellFounded_feeds hlt hcycle
  refine ⟨hsize, ?_, hwf, ?_, ?_⟩
  · intro i k hk
    rw [← hsize]
    exact hlt i k hk
  · rw [horder, ← hsize]
    exact orderOf_perm hwf hlt
  · rw [horder]
    exact orderOf_pairwise hwf hlt

/-- The names of a set are those of its graph, in the order of declaration. -/
theorem name_ofSet {s : NodeSet} (h : ofSet s = .ok g) {i : Nat} {n : Definition.Node}
    (hn : s.nodes[i]? = some n) : g.name i = n.name := by
  rw [name, (ofSet_eq_ok h).2.2.1, NodeSet.names, List.getD_eq_getElem?_getD, List.getElem?_map, hn]
  rfl

/-- Different nodes have different names. -/
theorem name_injective {s : NodeSet} (h : ofSet s = .ok g) {i k : Nat} (hi : i < g.size)
    (hk : k < g.size) (hname : g.name i = g.name k) : i = k := by
  have hnodup : g.names.Nodup := by
    rw [(ofSet_eq_ok h).2.2.1]
    exact s.distinct
  rw [size] at hi hk
  rw [name, name, List.getD_eq_getElem _ _ hi, List.getD_eq_getElem _ _ hk] at hname
  exact (List.Nodup.getElem_inj_iff hnodup).mp hname

/-! ## Selections -/

/-- The selection holds the source of every node that it holds. -/
def Closed (g : Graph) (selected : List Bool) : Prop :=
  ∀ i k, selected.getD i false = true → g.source i = some k → selected.getD k false = true

theorem closed_everything (hg : g.Sound) : g.Closed g.everything := by
  intro i k _ hk
  rw [everything, List.getD_eq_getElem?_getD, List.getElem?_replicate, if_pos (hg.source_lt hk)]
  rfl

/-- One node more is selected. -/
theorem getD_set_true {selected : List Bool} {i k : Nat} (hi : i < selected.length) :
    (selected.set i true).getD k false = true ↔ k = i ∨ selected.getD k false = true := by
  rw [List.getD_eq_getElem?_getD, List.getD_eq_getElem?_getD, List.getElem?_set]
  by_cases hk : k = i
  · subst hk
    simp [hi]
  · simp [hk, Ne.symm hk]

theorem count_set_true {selected : List Bool} {i : Nat} (hi : i < selected.length)
    (h : selected[i] = false) : (selected.set i true).count false + 1 = selected.count false := by
  have hpos : 0 < selected.count false := by
    rw [List.count_pos_iff]
    exact h ▸ List.getElem_mem hi
  rw [List.count_set hi]
  simp only [h, beq_self_eq_true, if_true, Bool.true_eq_false, beq_iff_eq, if_false]
  omega

/-- A selection that lacks at most the node to go on with is closed when the way along the
sources has come to a node that is selected; every node on the way is one that was not. -/
theorem closed_selectFrom (hg : g.Sound) {fuel i : Nat} {selected : List Bool}
    (hlen : selected.length = g.size) (hi : i < g.size)
    (hclosed : ∀ a k, selected.getD a false = true → g.source a = some k →
      selected.getD k false = true ∨ k = i)
    (hfuel : selected.count false ≤ fuel) :
    g.Closed (selectFrom g fuel i selected) ∧ (selectFrom g fuel i selected).length = g.size := by
  induction fuel generalizing i selected with
  | zero =>
      refine ⟨?_, hlen⟩
      have hall : ∀ k, k < selected.length → selected.getD k false = true := by
        intro k hk
        rw [List.getD_eq_getElem _ _ hk]
        by_contra hfalse
        have hmem : false ∈ selected := by
          rw [Bool.not_eq_true] at hfalse
          exact hfalse ▸ List.getElem_mem hk
        have := List.count_pos_iff.mpr hmem
        omega
      intro a k _ hk
      exact hall k (by rw [hlen]; exact hg.source_lt hk)
  | succ fuel ih =>
      rw [selectFrom]
      have hi' : i < selected.length := by omega
      rw [List.getD_eq_getElem _ _ hi']
      split
      · next hsel =>
        refine ⟨?_, hlen⟩
        intro a k ha hk
        rcases hclosed a k ha hk with h | h
        · exact h
        · rw [h, List.getD_eq_getElem _ _ hi', hsel]
      · next hsel =>
        rw [Bool.not_eq_true] at hsel
        have hcount := count_set_true hi' hsel
        split
        · next hroot =>
          refine ⟨?_, by rw [List.length_set, hlen]⟩
          intro a k ha hk
          rw [getD_set_true hi'] at ha ⊢
          rcases ha with rfl | ha
          · rw [hroot] at hk
            simp at hk
          · exact (hclosed a k ha hk).symm
        · next m hm =>
          refine ih (by rw [List.length_set, hlen]) (hg.source_lt hm) ?_ (by omega)
          intro a k ha hk
          rw [getD_set_true hi'] at ha ⊢
          rcases ha with rfl | ha
          · rw [hm] at hk
            exact Or.inr (Option.some.inj hk).symm
          · exact Or.inl (hclosed a k ha hk).symm

/-- **Nodes with everything they depend on are a closed selection.** -/
theorem closed_closure (hg : g.Sound) {roots : List Nat} (hroots : ∀ i ∈ roots, i < g.size) :
    g.Closed (g.closure roots) ∧ (g.closure roots).length = g.size := by
  have hfold : ∀ selected : List Bool, g.Closed selected → selected.length = g.size →
      g.Closed (roots.foldl (fun selected i => selectFrom g g.size i selected) selected) ∧
        (roots.foldl (fun selected i => selectFrom g g.size i selected) selected).length
          = g.size := by
    induction roots with
    | nil => exact fun selected hclosed hlen => ⟨hclosed, hlen⟩
    | cons i rest ih =>
        intro selected hclosed hlen
        have hfuel : selected.count false ≤ g.size := hlen ▸ List.count_le_length
        obtain ⟨hclosed', hlen'⟩ := closed_selectFrom hg hlen (hroots i (by simp))
          (fun a k ha hk => Or.inl (hclosed a k ha hk)) hfuel
        exact ih (fun k hk => hroots k (by simp [hk])) _ hclosed' hlen'
  refine hfold _ ?_ List.length_replicate
  intro i k hsel
  rw [List.getD_eq_getElem?_getD, List.getElem?_replicate] at hsel
  split at hsel <;> simp at hsel

theorem lt_of_indexOf? {name : String} {k : Nat} (h : g.indexOf? name = some k) : k < g.size :=
  (List.findIdx?_eq_some_iff_getElem.mp h).1

/-- A selection by names is the closure of nodes of the graph. -/
theorem select_eq_ok {names : List String} {selected : List Bool}
    (h : g.select names = .ok selected) :
    ∃ roots, (∀ i ∈ roots, i < g.size) ∧ selected = g.closure roots := by
  simp only [select, bind, Except.bind, pure, Except.pure] at h
  split at h
  · simp at h
  · next roots hroots =>
    refine ⟨roots, ?_, (Except.ok.inj h).symm⟩
    intro i hi
    obtain ⟨name, -, hname⟩ := exists_of_mem_mapM hroots hi
    split at hname
    · next k hk =>
      rw [← Except.ok.inj hname]
      exact lt_of_indexOf? hk
    · simp at hname

end Graph

end Distill
