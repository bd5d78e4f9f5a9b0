import Distill.Execution.Environment

/-!
# Services

A service evaluates the nodes of one set for archives, whose artifacts are in a cache.

## Main definitions

* `Service` — a set with a sound graph.
* `RunOptions` — how an archive is evaluated.
* `Service.job`, `Service.close` — the beginning and the end of a run.
* `Service.run` — evaluate an archive.
* `Service.invalidate` — drop the artifact of a node.
-/

namespace Distill

open Definition (NodeSet)

/-- A set of nodes with its graph. -/
structure Service where
  set : NodeSet
  graph : Graph
  /-- How many tasks may be in flight, unless a run says otherwise. -/
  concurrency : Nat := 1

/-- How an archive is evaluated. -/
structure RunOptions where
  /-- Do not take values of earlier runs. -/
  force : Bool := false
  /-- How many tasks may be in flight. -/
  concurrency : Option Nat := none
  /-- Evaluate only these nodes and those they depend on. -/
  nodes : Option (List String) := none
  deriving DecidableEq, Repr, Inhabited

/-- Why a service cannot answer. -/
inductive ServiceError where
  /-- No node of the set has the name. -/
  | unknownNode (name : String)
  | cache (e : CacheError)
  deriving DecidableEq, Repr

/-- The full message. -/
def ServiceError.message : ServiceError → String
  | unknownNode name => "unknown reduction node in filter: " ++ quoted name
  | cache e => e.display

/-- A run that is over. -/
structure Run where
  report : Report
  /-- What was told, in order. -/
  events : List Event
  /-- The nodes whose steps were started, in order. -/
  calls : List Nat
  deriving Repr, Inhabited

namespace Service

/-- The service of a set. -/
def ofSet (set : NodeSet) (concurrency : Nat := 1) : Except GraphError Service := do
  return { set, graph := ← Graph.ofSet set, concurrency }

variable (s : Service)

/-! ## Runs -/

/-- How many tasks may be in flight. -/
def limit (o : RunOptions) : Nat := o.concurrency.getD s.concurrency

/-- The nodes that are evaluated. -/
def selection (o : RunOptions) : Except ServiceError (List Bool) :=
  match o.nodes with
  | none => .ok s.graph.everything
  | some names => (s.graph.select names).mapError .unknownNode

/-- What a run evaluates. -/
def job (o : RunOptions) (archive : String) : Except ServiceError Job := do
  let selected ← s.selection o
  return { set := s.set, graph := s.graph, archive, force := o.force, limit := s.limit o, selected }

/-- The end of a run. The conclusions are stored, as far as the cache can, if all nodes
were evaluated. -/
def close (o : RunOptions) (j : Job) (p : Progress) (c : Cache) : Run × Cache :=
  let report := j.report p
  ({ report, events := p.events ++ [Job.completed report], calls := p.calls },
    if o.nodes.isSome then c else (c.putConclusions j.archive report.conclusions).2)

/-- Evaluate an archive. -/
def run {σ : Type} (env : Environment σ) (o : RunOptions) (archive : String) (cancelled : Bool)
    (c : Cache) : StateM σ (Except ServiceError Run × Cache) :=
  match s.job o archive with
  | .error e => pure (.error e, c)
  | .ok j => do
    let (p, c) ← env.execute j cancelled c
    let (r, c) := close o j p c
    return (.ok r, c)

/-! ## Artifacts -/

/-- Drop the artifact of a node of the set; tells whether there was one. -/
def invalidate (archive node : String) (c : Cache) : Except ServiceError Bool × Cache :=
  if s.set.contains node then (c.invalidate archive node).map (·.mapError .cache) id
  else (.error (.unknownNode node), c)

end Service

end Distill
