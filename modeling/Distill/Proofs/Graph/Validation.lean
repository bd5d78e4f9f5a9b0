import Distill.Proofs.Graph.Soundness

/-!
# Sets without a graph

A set has no graph when a source is no node, and otherwise when the sources go around a cycle.
The search goes by the places of the nodes; a node of a set has one name, so that what it finds
holds of the names as well.

## Main definitions

* `Definition.NodeSet.Reads`, `Definition.NodeSet.Ends` — the sources of nodes, by their names.
* `Definition.NodeSet.Known` — sources that are nodes.

## Main statements

* `sourcesOf_of_known`, `sourcesOf_of_unknown` — the places of the sources, or the first source
  that is no node.
* `Graph.ofSet_cases` — what the graph of a set comes to.
* `Graph.exists_of_unknownSource`, `Graph.exists_of_cycle`, `Graph.ends_of_ofSet` — what each
  outcome tells of the set.
* `Graph.refused_exactly_if_unsound` — when a set has a graph, and why it has none.
-/

namespace Distill

open Definition (NodeSet)

/-! ## Sources by name -/

namespace Definition.NodeSet

variable {s : NodeSet} {a b : String} {i k : Nat} {n : Node}

/-- The node of one name reads the output of the other. -/
def Reads (s : NodeSet) (a b : String) : Prop := ∃ n ∈ s.nodes, n.name = a ∧ n.source = some b

/-- The sources of a node end: they lead to a root. -/
def Ends (s : NodeSet) (a : String) : Prop :=
  ∃ root, Relation.ReflTransGen s.Reads a root ∧ ∀ b, ¬ s.Reads root b

/-- The source of the node, if it has one, is a node of the set. -/
def Known (s : NodeSet) (n : Node) : Prop := ∀ source, n.source = some source → source ∈ s.names

/-- A node has one source. -/
theorem Reads.unique {b' : String} (h : s.Reads a b) (h' : s.Reads a b') : b = b' := by
  obtain ⟨n, hn, hname, hsource⟩ := h
  obtain ⟨n', hn', hname', hsource'⟩ := h'
  obtain rfl : n = n' := List.inj_on_of_nodup_map s.distinct hn hn' (hname.trans hname'.symm)
  exact Option.some.inj (hsource.symm.trans hsource')

/-- A node whose source ends does. -/
theorem Ends.head (h : s.Ends b) (hread : s.Reads a b) : s.Ends a := by
  obtain ⟨root, hway, hroot⟩ := h
  exact ⟨root, .head hread hway, hroot⟩

/-- With the sources of a node those of the nodes that it leads to end. -/
theorem Ends.of_reflTransGen (h : s.Ends a) (hab : Relation.ReflTransGen s.Reads a b) :
    s.Ends b := by
  induction hab with
  | refl => exact h
  | @tail b d _ hread ih =>
      obtain ⟨root, hway, hroot⟩ := ih
      rcases Relation.ReflTransGen.cases_head hway with rfl | ⟨d', hread', hway⟩
      · exact absurd hread (hroot d)
      · obtain rfl := hread.unique hread'
        exact ⟨root, hway, hroot⟩

/-- The sources of a node on a cycle do not end. -/
theorem not_transGen_of_ends (h : s.Ends a) : ¬ Relation.TransGen s.Reads a a := by
  obtain ⟨root, hway, hroot⟩ := h
  induction hway using Relation.ReflTransGen.head_induction_on with
  | refl =>
      intro hcycle
      obtain ⟨b, hb, -⟩ := Relation.TransGen.head'_iff.mp hcycle
      exact hroot b hb
  | @head a b hread hway ih =>
      intro hcycle
      obtain ⟨b', hread', hback⟩ := Relation.TransGen.head'_iff.mp hcycle
      obtain rfl := hread.unique hread'
      exact ih (Relation.TransGen.tail' hback hread)

/-- Without nodes whose sources do not end there is no cycle. -/
theorem not_exists_transGen (h : ∀ n ∈ s.nodes, s.Ends n.name) :
    ¬ ∃ a, Relation.TransGen s.Reads a a := by
  rintro ⟨a, hcycle⟩
  obtain ⟨b, ⟨n, hn, rfl, -⟩, -⟩ := Relation.TransGen.head'_iff.mp hcycle
  exact not_transGen_of_ends (h n hn) hcycle

/-! ## Nodes by place -/

/-- The name at a place. -/
def nameAt (s : NodeSet) (i : Nat) : String := s.names.getD i ""

theorem nameAt_of_nodes (h : s.nodes[i]? = some n) : s.nameAt i = n.name := by
  rw [nameAt, names, List.getD_eq_getElem?_getD, List.getElem?_map, h]
  rfl

theorem nameAt_of_names (h : s.names[i]? = some a) : s.nameAt i = a := by
  rw [nameAt, List.getD_eq_getElem?_getD, h]
  rfl

end Definition.NodeSet

/-! ## Sources by place -/

section Places

open Definition.NodeSet

variable {s : NodeSet} {sources : List (Option Nat)} {i k : Nat}

/-- The sources of nodes are places when all of them are nodes. -/
theorem sourcesOf_of_known {ns : List Definition.Node} (h : ∀ n ∈ ns, s.Known n) :
    sourcesOf s ns = .ok (ns.map fun n => n.source.bind s.indexOf?) := by
  induction ns with
  | nil => rfl
  | cons n rest ih =>
      have hrest := ih fun m hm => h m (by simp [hm])
      cases hsource : n.source with
      | none => simp [sourcesOf, hsource, hrest, Except.map]
      | some source =>
          obtain ⟨k, hk⟩ := exists_indexOf? (h n (by simp) source hsource)
          simp [sourcesOf, hsource, hk, hrest, Except.map]

/-- **The first source that is no node is the error,** whatever comes after it. -/
theorem sourcesOf_of_unknown {before after : List Definition.Node} {n : Definition.Node}
    {source : String} (hbefore : ∀ m ∈ before, s.Known m) (hsource : n.source = some source)
    (hunknown : source ∉ s.names) :
    sourcesOf s (before ++ n :: after) = .error (.unknownSource n.name source) := by
  induction before with
  | nil => simp [sourcesOf, hsource, indexOf?_eq_none_iff.mpr hunknown]
  | cons m rest ih =>
      have hrest := ih fun m' hm' => hbefore m' (by simp [hm'])
      rw [List.cons_append, sourcesOf]
      cases hm : m.source with
      | none => simp [hrest, Except.map]
      | some source' =>
          obtain ⟨k, hk⟩ := exists_indexOf? (hbefore m (by simp) source' hm)
          simp [hk, hrest, Except.map]

/-- The first node whose source is no node. -/
theorem exists_first_unknown {ns : List Definition.Node} (h : ¬ ∀ n ∈ ns, s.Known n) :
    ∃ before n after source, ns = before ++ n :: after ∧ (∀ m ∈ before, s.Known m) ∧
      n.source = some source ∧ source ∉ s.names := by
  induction ns with
  | nil => simp at h
  | cons n rest ih =>
      by_cases hn : s.Known n
      · have hrest : ¬ ∀ m ∈ rest, s.Known m := by
          intro hall
          exact h (List.forall_mem_cons.mpr ⟨hn, hall⟩)
        obtain ⟨before, m, after, source, rfl, hbefore, hunknown⟩ := ih hrest
        exact ⟨n :: before, m, after, source, rfl, List.forall_mem_cons.mpr ⟨hn, hbefore⟩, hunknown⟩
      · rw [Known] at hn
        push Not at hn
        obtain ⟨source, hsource, hunknown⟩ := hn
        exact ⟨[], n, rest, source, rfl, by simp, hsource, hunknown⟩

/-- The source of the node at a place. -/
theorem sourceAt_eq_some_iff (hknown : ∀ n ∈ s.nodes, s.Known n)
    (h : sourcesOf s s.nodes = .ok sources) : sourceAt sources i = some k ↔
      ∃ n, s.nodes[i]? = some n ∧ ∃ source, n.source = some source ∧
        s.names[k]? = some source := by
  rw [sourcesOf_of_known hknown, Except.ok.injEq] at h
  subst h
  simp only [sourceAt, List.getElem?_map, Option.join_eq_some_iff, Option.map_eq_some_iff,
    Option.bind_eq_some_iff, indexOf?_eq_some_iff]

/-- A node reads the output of its source. -/
theorem reads_of_feeds (hknown : ∀ n ∈ s.nodes, s.Known n)
    (h : sourcesOf s s.nodes = .ok sources) (hk : Feeds sources k i) :
    s.Reads (s.nameAt i) (s.nameAt k) := by
  obtain ⟨n, hn, source, hsource, hname⟩ := (sourceAt_eq_some_iff hknown h).mp hk
  rw [nameAt_of_nodes hn, nameAt_of_names hname]
  exact ⟨n, List.mem_of_getElem? hn, rfl, hsource⟩

/-- Different nodes with sources have different names. -/
theorem nameAt_injective (hknown : ∀ n ∈ s.nodes, s.Known n)
    (h : sourcesOf s s.nodes = .ok sources) {i' k' : Nat} (hk : Feeds sources k i)
    (hk' : Feeds sources k' i') (hname : s.nameAt i = s.nameAt i') : i = i' := by
  obtain ⟨n, hn, -⟩ := (sourceAt_eq_some_iff hknown h).mp hk
  obtain ⟨n', hn', -⟩ := (sourceAt_eq_some_iff hknown h).mp hk'
  rw [nameAt_of_nodes hn, nameAt_of_nodes hn'] at hname
  have hnames : s.names[i]? = s.names[i']? := by
    rw [names, List.getElem?_map, List.getElem?_map, hn, hn', Option.map_some, Option.map_some,
      hname]
  refine (List.getElem?_inj ?_ s.distinct).mp hnames
  obtain ⟨hi, -⟩ := List.getElem?_eq_some_iff.mp hn
  simpa using hi

/-- A node ends by name when it does by place. -/
theorem ends_of_acc (hknown : ∀ n ∈ s.nodes, s.Known n)
    (h : sourcesOf s s.nodes = .ok sources) (hacc : Acc (Feeds sources) i) {n : Definition.Node}
    (hn : s.nodes[i]? = some n) : s.Ends n.name := by
  induction hacc generalizing n with
  | intro i _ ih =>
      cases hsource : n.source with
      | none =>
          refine ⟨n.name, .refl, ?_⟩
          rintro b ⟨m, hm, hname, hread⟩
          obtain rfl : m = n :=
            List.inj_on_of_nodup_map s.distinct hm (List.mem_of_getElem? hn) hname
          rw [hsource] at hread
          simp at hread
      | some source =>
          have hmem := List.mem_of_getElem? hn
          obtain ⟨k, hk⟩ := exists_indexOf? (hknown n hmem source hsource)
          have hname := indexOf?_eq_some_iff.mp hk
          have hfeeds : Feeds sources k i :=
            (sourceAt_eq_some_iff hknown h).mpr ⟨n, hn, source, hsource, hname⟩
          rw [names, List.getElem?_map, Option.map_eq_some_iff] at hname
          obtain ⟨m, hm, rfl⟩ := hname
          exact (ih k hfeeds hm).head ⟨n, hmem, rfl, hsource⟩

end Places

/-! ## What the graph comes to -/

namespace Graph

open Definition.NodeSet

variable {s : NodeSet} {sources : List (Option Nat)} {cycle : List Nat}

theorem ofSet_of_unknown {e : GraphError} (h : sourcesOf s s.nodes = .error e) :
    ofSet s = .error e := by
  rw [ofSet, h]
  rfl

theorem ofSet_of_cycle (h : sourcesOf s s.nodes = .ok sources)
    (hcycle : firstCycle sources = some cycle) :
    ofSet s = .error (.cycle (cycle.map s.nameAt)) := by
  simp only [ofSet, h, hcycle, bind, Except.bind, throw, throwThe, MonadExceptOf.throw]
  rfl

theorem ofSet_of_none (h : sourcesOf s s.nodes = .ok sources) (hcycle : firstCycle sources = none) :
    ofSet s = .ok ⟨s.names, sources, orderOf sources⟩ := by
  simp only [ofSet, h, hcycle, bind, Except.bind, pure, Except.pure]

/-- The first source that is no node, otherwise the cycle that the first node without an end of its
sources leads to, and otherwise a graph. -/
theorem ofSet_cases (s : NodeSet) :
    (∃ before n after source, s.nodes = before ++ n :: after ∧ (∀ m ∈ before, s.Known m) ∧
      n.source = some source ∧ source ∉ s.names ∧
      ofSet s = .error (.unknownSource n.name source)) ∨
    (∀ n ∈ s.nodes, s.Known n) ∧
      ((∃ before n after lead first ring, s.nodes = before ++ n :: after ∧
        (∀ m ∈ before, s.Ends m.name) ∧ Loop s.Reads n.name lead first ring ∧
        ofSet s = .error (.cycle (first :: ring ++ [first]))) ∨
      (∀ n ∈ s.nodes, s.Ends n.name) ∧ ∃ g, ofSet s = .ok g) := by
  by_cases hknown : ∀ n ∈ s.nodes, s.Known n
  · refine .inr ⟨hknown, ?_⟩
    obtain ⟨sources, hsources⟩ : ∃ sources, sourcesOf s s.nodes = .ok sources :=
      ⟨_, sourcesOf_of_known hknown⟩
    have hlt : ∀ i k, sourceAt sources i = some k → k < sources.length :=
      fun _ _ => lt_of_sourcesOf hsources
    cases hcycle : firstCycle sources with
    | some cycle =>
        refine .inl ?_
        obtain ⟨start, hstart, hbefore, lead, first, ring, rfl, hloop⟩ :=
          firstCycle_eq_some hlt hcycle
        rw [(sourcesOf_spec hsources).1] at hstart
        have hn : s.nodes[start]? = some s.nodes[start] := List.getElem?_eq_getElem hstart
        refine ⟨s.nodes.take start, s.nodes[start], s.nodes.drop (start + 1), lead.map s.nameAt,
          s.nameAt first, ring.map s.nameAt, ?_, ?_, ?_, ?_⟩
        · rw [← List.drop_eq_getElem_cons, List.take_append_drop]
        · intro m hm
          obtain ⟨i, hi, hget⟩ := List.getElem_of_mem hm
          rw [List.length_take] at hi
          refine ends_of_acc hknown hsources (hbefore i (by omega)) ?_
          rw [← hget, List.getElem_take, List.getElem?_eq_getElem]
        · rw [← nameAt_of_nodes hn]
          exact hloop.map (fun a b h => reads_of_feeds hknown hsources h)
            fun a b a' b' h h' => nameAt_injective hknown hsources h h'
        · rw [ofSet_of_cycle hsources hcycle]
          simp
    | none =>
        refine .inr ⟨?_, _, ofSet_of_none hsources hcycle⟩
        intro n hn
        obtain ⟨i, hi, rfl⟩ := List.getElem_of_mem hn
        exact ends_of_acc hknown hsources ((wellFounded_feeds hlt hcycle).apply i)
          (List.getElem?_eq_getElem hi)
  · obtain ⟨before, n, after, source, hsplit, hbefore, hsource, hunknown⟩ :=
      exists_first_unknown hknown
    refine .inl ⟨before, n, after, source, hsplit, hbefore, hsource, hunknown, ?_⟩
    refine ofSet_of_unknown ?_
    rw [hsplit]
    exact sourcesOf_of_unknown hbefore hsource hunknown

/-- The error for an unknown source tells of the first one. -/
theorem exists_of_unknownSource {node source : String}
    (h : ofSet s = .error (.unknownSource node source)) :
    ∃ before n after, s.nodes = before ++ n :: after ∧ (∀ m ∈ before, s.Known m) ∧
      n.name = node ∧ n.source = some source ∧ source ∉ s.names := by
  rcases ofSet_cases s with
    ⟨before, n, after, source', hsplit, hbefore, hsource, hunknown, herror⟩ |
    ⟨-, ⟨_, _, _, _, _, _, -, -, -, herror⟩ | ⟨-, g, hok⟩⟩
  · rw [herror] at h
    injection h with h
    injection h with hname hsource'
    subst hname hsource'
    exact ⟨before, n, after, hsplit, hbefore, rfl, hsource, hunknown⟩
  · simp [herror] at h
  · simp [hok] at h

/-- The error for a cycle tells what the sources of the first node without an end lead to. -/
theorem exists_of_cycle {names : List String} (h : ofSet s = .error (.cycle names)) :
    (∀ n ∈ s.nodes, s.Known n) ∧ ∃ before n after, s.nodes = before ++ n :: after ∧
      (∀ m ∈ before, s.Ends m.name) ∧ ∃ lead first ring, names = first :: ring ++ [first] ∧
        Loop s.Reads n.name lead first ring := by
  rcases ofSet_cases s with ⟨_, _, _, _, -, -, -, -, herror⟩ |
    ⟨hknown, ⟨before, n, after, lead, first, ring, hsplit, hbefore, hloop, herror⟩ | ⟨-, g, hok⟩⟩
  · simp [herror] at h
  · rw [herror] at h
    injection h with h
    injection h with hnames
    exact ⟨hknown, before, n, after, hsplit, hbefore, lead, first, ring, hnames.symm, hloop⟩
  · simp [hok] at h

/-- In a set with a graph the sources of all nodes end. -/
theorem ends_of_ofSet {g : Graph} (h : ofSet s = .ok g) :
    (∀ n ∈ s.nodes, s.Known n) ∧ ∀ n ∈ s.nodes, s.Ends n.name := by
  rcases ofSet_cases s with ⟨_, _, _, _, -, -, -, -, herror⟩ |
    ⟨hknown, ⟨_, _, _, _, _, _, -, -, -, herror⟩ | ⟨hends, -⟩⟩
  · simp [herror] at h
  · simp [herror] at h
  · exact ⟨hknown, hends⟩

/-- The sources of a graph are those of the nodes. -/
theorem source_eq_some_iff {g : Graph} (h : ofSet s = .ok g) {i k : Nat} :
    g.source i = some k ↔
      ∃ n, s.nodes[i]? = some n ∧ ∃ source, n.source = some source ∧ s.names[k]? = some source :=
  sourceAt_eq_some_iff (ends_of_ofSet h).1 (ofSet_eq_ok h).1

/-- **A set is refused exactly when its sources are unsound.** It is refused for an unknown source
just when some source is no node, cycles or not, and then for the first one in the order of
declaration. Otherwise it is refused for a cycle just when its sources go around one. The cycle is
what the sources of the first declared node without an end lead to: it is a way along the sources
that comes back to its first node, holds no other node twice and no node of the lead to it. In all
other cases there is a graph. -/
theorem refused_exactly_if_unsound (s : NodeSet) :
    ((∃ node source, ofSet s = .error (.unknownSource node source)) ↔ ∃ n ∈ s.nodes, ¬ s.Known n) ∧
    (∀ node source, ofSet s = .error (.unknownSource node source) →
      ∃ before n after, s.nodes = before ++ n :: after ∧ (∀ m ∈ before, s.Known m) ∧
        n.name = node ∧ n.source = some source ∧ source ∉ s.names) ∧
    ((∃ names, ofSet s = .error (.cycle names)) ↔
      (∀ n ∈ s.nodes, s.Known n) ∧ ∃ a, Relation.TransGen s.Reads a a) ∧
    (∀ names, ofSet s = .error (.cycle names) →
      ∃ before n after, s.nodes = before ++ n :: after ∧
        (∀ m ∈ before, s.Ends m.name) ∧ ¬ s.Ends n.name ∧
        ∃ lead first ring, names = first :: ring ++ [first] ∧
          Loop s.Reads n.name lead first ring ∧
          ∀ a ∈ names, Relation.TransGen s.Reads a a) ∧
    ((∃ g, ofSet s = .ok g) ↔
      (∀ n ∈ s.nodes, s.Known n) ∧ ¬ ∃ a, Relation.TransGen s.Reads a a) := by
  refine ⟨⟨?_, ?_⟩, fun node source h => exists_of_unknownSource h, ⟨?_, ?_⟩, ?_, ⟨?_, ?_⟩⟩
  · rintro ⟨node, source, h⟩
    obtain ⟨before, n, after, hsplit, -, -, hsource, hunknown⟩ := exists_of_unknownSource h
    exact ⟨n, by simp [hsplit], fun hknown => hunknown (hknown source hsource)⟩
  · rintro ⟨n, hn, hnot⟩
    rcases ofSet_cases s with ⟨_, m, _, source, -, -, -, -, herror⟩ | ⟨hknown, -⟩
    · exact ⟨m.name, source, herror⟩
    · exact absurd (hknown n hn) hnot
  · rintro ⟨names, h⟩
    obtain ⟨hknown, _, _, _, -, -, _, first, _, -, hloop⟩ := exists_of_cycle h
    exact ⟨hknown, first, hloop.transGen_of_mem (by simp)⟩
  · rintro ⟨hknown, hcycle⟩
    rcases ofSet_cases s with ⟨_, n, _, source, hsplit, -, hsource, hunknown, -⟩ |
      ⟨-, ⟨_, _, _, _, _, _, -, -, -, herror⟩ | ⟨hends, -⟩⟩
    · exact absurd (hknown n (by simp [hsplit]) source hsource) hunknown
    · exact ⟨_, herror⟩
    · exact absurd hcycle (not_exists_transGen hends)
  · intro names h
    obtain ⟨-, before, n, after, hsplit, hbefore, lead, first, ring, rfl, hloop⟩ :=
      exists_of_cycle h
    have hback : Relation.TransGen s.Reads first first := hloop.transGen_of_mem (by simp)
    refine ⟨before, n, after, hsplit, hbefore, ?_, lead, first, ring, rfl, hloop, ?_⟩
    · intro hn
      exact not_transGen_of_ends (hn.of_reflTransGen hloop.reaches) hback
    · intro a ha
      rcases List.mem_append.mp ha with ha | ha
      · exact hloop.transGen_of_mem ha
      · rw [List.mem_singleton.mp ha]
        exact hback
  · rintro ⟨g, h⟩
    obtain ⟨hknown, hends⟩ := ends_of_ofSet h
    exact ⟨hknown, not_exists_transGen hends⟩
  · rintro ⟨hknown, hnone⟩
    rcases ofSet_cases s with ⟨_, n, _, source, hsplit, -, hsource, hunknown, -⟩ |
      ⟨-, ⟨_, _, _, _, first, _, -, -, hloop, -⟩ | ⟨-, hok⟩⟩
    · exact absurd (hknown n (by simp [hsplit]) source hsource) hunknown
    · exact absurd ⟨first, hloop.transGen_of_mem (by simp)⟩ hnone
    · exact hok

end Graph

/-- Two nodes that read each other's output, and the way to them from nodes declared before. -/
def Definition.NodeSet.tangled : NodeSet :=
  .ofDistinct [⟨"kernel", none, .exec ⟨"uname", [], none⟩⟩, ⟨"words", some "lines", .splitLines⟩,
    ⟨"lines", some "log", .splitLines⟩, ⟨"log", some "lines", .splitLines⟩] (by decide)

/-- The lead from the words to the lines is no part of the cycle. -/
theorem Graph.tangled_refused_exactly_if_unsound :
    ofSet .tangled = .error (.cycle ["lines", "log", "lines"]) ∧
    (∀ n ∈ (Definition.NodeSet.tangled).nodes, (Definition.NodeSet.tangled).Known n) ∧
    ∀ a ∈ ["lines", "log", "lines"], Relation.TransGen (Definition.NodeSet.tangled).Reads a a := by
  have herror : ofSet .tangled = .error (.cycle ["lines", "log", "lines"]) := rfl
  obtain ⟨-, -, hcycle, hnames, -⟩ := refused_exactly_if_unsound .tangled
  obtain ⟨_, _, _, -, -, -, _, _, _, -, -, hback⟩ := hnames _ herror
  exact ⟨herror, (hcycle.mp ⟨_, herror⟩).1, hback⟩

end Distill
