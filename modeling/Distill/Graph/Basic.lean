import Distill.Definition.NodeSet
import Distill.Text.Basic

/-!
# Graphs of nodes

The sources of the nodes of a set as places in the order of declaration, and an order in
which each node comes behind its source.

## Main definitions

* `Graph` — the nodes with their sources and the order of evaluation.
* `Graph.ofSet` — the graph of a set; a source that does not exist and a cycle are errors.
* `Graph.closure` — nodes with everything they depend on.
-/

namespace Distill

open Definition (NodeSet)

/-! ## Errors -/

/-- Why a set has no graph. -/
inductive GraphError where
  /-- The names of the nodes on a cycle, the first one again at the end. -/
  | cycle (names : List String)
  /-- A source that is no node. -/
  | unknownSource (node source : String)
  deriving DecidableEq, Repr

namespace GraphError

/-- The names that an error concerns. -/
def nodes : GraphError → List String
  | cycle names => names
  | unknownSource _ source => [source]

/-- What is wrong. -/
def message : GraphError → String
  | cycle names => "circular source references: " ++ " -> ".intercalate names
  | unknownSource node source =>
    "node " ++ quoted node ++ " has unknown source " ++ quoted source

/-- The full message. -/
def display (e : GraphError) : String := "graph error: " ++ e.message

end GraphError

/-! ## Sources -/

/-- The source of each node as a place, for nodes from some place on. -/
def sourcesOf (s : NodeSet) : List Definition.Node → Except GraphError (List (Option Nat))
  | [] => .ok []
  | n :: rest =>
    match n.source with
    | none => (sourcesOf s rest).map (none :: ·)
    | some source =>
      match s.indexOf? source with
      | none => .error (.unknownSource n.name source)
      | some i => (sourcesOf s rest).map (some i :: ·)

/-- The source of a node. -/
def sourceAt (sources : List (Option Nat)) (i : Nat) : Option Nat := (sources[i]?).join

/-- The nodes whose source is a given node, in the order of declaration. -/
def dependentsAt (sources : List (Option Nat)) (i : Nat) : List Nat :=
  (List.range sources.length).filter fun j => sourceAt sources j = some i

/-! ## Cycles -/

/-- What a search along the sources comes to. -/
inductive Search where
  | cycle (nodes : List Nat)
  /-- The sources end, or come to a node that was visited before. -/
  | ended (visited : List Nat)
  deriving DecidableEq, Repr

/-- Go on with a search from the end of a way; the way holds every node once, so that it grows
at most to the number of the nodes. -/
def searchFrom (sources : List (Option Nat)) : Nat → List Nat → List Nat → Nat → Search
  | 0, visited, _, _ => .ended visited
  | fuel + 1, visited, way, i =>
    match sourceAt sources i with
    | none => .ended (i :: visited)
    | some k =>
      if way.contains k then .cycle (way.dropWhile (· != k) ++ [k])
      else if (i :: visited).contains k then .ended (i :: visited)
      else searchFrom sources fuel (i :: visited) (way ++ [k]) k

/-- The first cycle that searches from some nodes in turn come to; a node that was visited by
an earlier search needs none of its own. -/
def cycleAmong (sources : List (Option Nat)) : List Nat → List Nat → Option (List Nat)
  | _, [] => none
  | visited, i :: rest =>
    if visited.contains i then cycleAmong sources visited rest
    else
      match searchFrom sources sources.length visited [i] i with
      | .cycle nodes => some nodes
      | .ended visited => cycleAmong sources visited rest

/-- The cycle that the first node without an end of its sources leads to. -/
def firstCycle (sources : List (Option Nat)) : Option (List Nat) :=
  cycleAmong sources [] (List.range sources.length)

/-! ## Order -/

/-- Put a number into an ascending list. -/
def insertAscending (i : Nat) : List Nat → List Nat
  | [] => [i]
  | j :: rest => if i ≤ j then i :: j :: rest else j :: insertAscending i rest

/-- A state of sorting: how many sources of each node are still missing, which nodes can
come next in ascending order, and which have come. -/
structure Sorting where
  missing : List Nat
  ready : List Nat
  done : List Nat
  deriving DecidableEq, Repr

namespace Sorting

/-- No node has come yet. -/
def start (sources : List (Option Nat)) : Sorting where
  missing := sources.map fun s => if s.isSome then 1 else 0
  ready := (List.range sources.length).filter fun i => (sourceAt sources i).isNone
  done := []

/-- One source less is missing; with the last one the node is ready. -/
def release (s : Sorting) (i : Nat) : Sorting :=
  let left := s.missing.getD i 0 - 1
  { s with
    missing := s.missing.set i left
    ready := if left = 0 then insertAscending i s.ready else s.ready }

/-- The first node that is ready comes. -/
def next? (sources : List (Option Nat)) (s : Sorting) : Option Sorting :=
  match s.ready with
  | [] => none
  | i :: rest =>
    some ((dependentsAt sources i).foldl release { s with ready := rest, done := s.done ++ [i] })

/-- The state after at most so many nodes. -/
def run (sources : List (Option Nat)) : Nat → Sorting → Sorting
  | 0, s => s
  | n + 1, s =>
    match next? sources s with
    | none => s
    | some s => run sources n s

end Sorting

/-- The nodes in an order in which each comes behind its source, the first declared one
whenever there is a choice. -/
def orderOf (sources : List (Option Nat)) : List Nat :=
  (Sorting.run sources sources.length (Sorting.start sources)).done

/-! ## Graphs -/

/-- The nodes with their sources and the order of evaluation; a node is its place in the
order of declaration. -/
structure Graph where
  names : List String
  sources : List (Option Nat)
  order : List Nat
  deriving DecidableEq, Repr, Inhabited

namespace Graph

/-- The graph of a set. -/
def ofSet (s : NodeSet) : Except GraphError Graph := do
  let sources ← sourcesOf s s.nodes
  match firstCycle sources with
  | some cycle => throw (.cycle (cycle.map fun i => s.names.getD i ""))
  | none => return { names := s.names, sources, order := orderOf sources }

/-- How many nodes there are. -/
def size (g : Graph) : Nat := g.names.length

/-- The name of a node. -/
def name (g : Graph) (i : Nat) : String := g.names.getD i ""

/-- The node of a name. -/
def indexOf? (g : Graph) (name : String) : Option Nat := g.names.findIdx? (· == name)

/-- The source of a node. -/
def source (g : Graph) (i : Nat) : Option Nat := sourceAt g.sources i

/-- The nodes whose source is a given node. -/
def dependents (g : Graph) (i : Nat) : List Nat := dependentsAt g.sources i

/-- The names in the order of evaluation. -/
def orderedNames (g : Graph) : List String := g.order.map g.name

/-! ## Selections -/

/-- All nodes. -/
def everything (g : Graph) : List Bool := List.replicate g.size true

/-- Select a node, its source, and so on up to a node that is selected already. -/
def selectFrom (g : Graph) : Nat → Nat → List Bool → List Bool
  | 0, _, selected => selected
  | fuel + 1, i, selected =>
    if selected.getD i true then selected
    else
      match g.source i with
      | none => selected.set i true
      | some j => selectFrom g fuel j (selected.set i true)

/-- Some nodes with everything they depend on. -/
def closure (g : Graph) (roots : List Nat) : List Bool :=
  roots.foldl (fun selected i => selectFrom g g.size i selected) (List.replicate g.size false)

/-- The nodes of names with everything they depend on, or the first name of no node. -/
def select (g : Graph) (names : List String) : Except String (List Bool) := do
  let roots ← names.mapM fun name =>
    match g.indexOf? name with
    | some i => .ok i
    | none => .error name
  return g.closure roots

end Graph

end Distill
