import Distill.Keyed
import Distill.Step.Basic

/-!
# Sets of nodes

A set keeps its nodes in the order of their declaration, and beside them a table of the places at
which they stand. Names are looked up in the table alone, so it has to know each node and no other
name; adding a node keeps it so.

## Main definitions

* `Definition.Node` — a name, a step and the node whose output the step reads.
* `Definition.Indexed` — a table that knows the places of some nodes.
* `Definition.NodeSet` — nodes in the order of their declaration, with the table of their places.
* `Definition.NodeSet.insert?` — add a node at the end, unless its name is taken.
-/

namespace Distill.Definition

/-- A node of a definition. -/
structure Node where
  name : String
  /-- The name of the node whose output is the input. -/
  source : Option String
  step : Step
  deriving Repr, Inhabited

namespace Node

/-- The name of the type. -/
def typeName (n : Node) : String := n.step.typeName

/-- The analysis, if the node is one. -/
def analysis? (n : Node) : Option AnalysisStep :=
  match n.step with
  | .analysis a => some a
  | _ => none

/-- Whether the node is an analysis. -/
def isAnalysis (n : Node) : Bool := n.analysis?.isSome

end Node

/-- What the table has under a name is the place of the node of this name, for all nodes and for
no other name. -/
structure Indexed (nodes : List Node) (places : List (String × Nat)) : Prop where
  ascending : Ascending places
  lookup_iff : ∀ name i, places.lookup name = some i ↔ (nodes.map Node.name)[i]? = some name

namespace Indexed

variable {nodes : List Node} {places : List (String × Nat)}

theorem nil : Indexed [] [] := ⟨List.Pairwise.nil, by simp⟩

/-- **A node of a free name can be added to nodes and table.** -/
theorem insert {n : Node} (h : Indexed nodes places) (hfree : places.lookup n.name = none) :
    Indexed (nodes ++ [n]) (insertKey n.name nodes.length places) where
  ascending := h.ascending.insertKey
  lookup_iff name i := by
    have hlt : ∀ {i name}, (nodes.map Node.name)[i]? = some name → i < nodes.length := by
      intro i name hi
      simpa using (List.getElem?_eq_some_iff.mp hi).1
    rw [lookup_insertKey, List.map_append, List.map_singleton]
    by_cases hi : i < nodes.length
    · rw [List.getElem?_append_left (by simpa using hi), ← h.lookup_iff]
      split
      · next hname =>
        subst hname
        simp [hfree]
        omega
      · rfl
    · rw [List.getElem?_append_right (by simpa using hi), List.length_map,
        List.getElem?_singleton]
      split
      · next hname =>
        subst hname
        simp
        omega
      · next hname =>
        constructor
        · intro hlookup
          exact absurd (hlt ((h.lookup_iff name i).mp hlookup)) hi
        · intro hlast
          split at hlast
          · exact absurd (Option.some.inj hlast).symm hname
          · cases hlast

end Indexed

/-- Nodes in the order of their declaration, with the table of their places. -/
structure NodeSet where
  nodes : List Node
  places : List (String × Nat)
  indexed : Indexed nodes places

namespace NodeSet

/-- No nodes. -/
def empty : NodeSet := ⟨[], [], .nil⟩

instance : Inhabited NodeSet := ⟨empty⟩

/-- The place of a node. -/
def indexOf? (s : NodeSet) (name : String) : Option Nat := s.places.lookup name

/-- The node of a name. -/
def get? (s : NodeSet) (name : String) : Option Node :=
  (s.indexOf? name).bind fun i => s.nodes[i]?

/-- Whether a name is taken. -/
def contains (s : NodeSet) (name : String) : Bool := (s.indexOf? name).isSome

/-- How many nodes there are. -/
def size (s : NodeSet) : Nat := s.nodes.length

/-- The names in the order of declaration. -/
def names (s : NodeSet) : List String := s.nodes.map (·.name)

/-- The analyses in the order of declaration. -/
def analyses (s : NodeSet) : List Node := s.nodes.filter (·.isAnalysis)

/-- Add a node at the end, unless its name is taken. -/
def insert? (s : NodeSet) (n : Node) : Option NodeSet :=
  if h : s.contains n.name then none
  else some {
    nodes := s.nodes ++ [n]
    places := insertKey n.name s.size s.places
    indexed := s.indexed.insert (Option.not_isSome_iff_eq_none.mp h) }

end NodeSet

end Distill.Definition
