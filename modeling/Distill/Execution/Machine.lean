import Distill.Cache.Basic
import Distill.Execution.Report

/-!
# Evaluating nodes

The evaluation of the selected nodes of a graph for one archive is a machine whose moves
are chosen from outside: which task goes on next, what a step gives, and when the run is
cancelled. A node is launched when its source is settled, the first declared one first,
and never more tasks are in flight than there are slots.

## Main definitions

* `Job` — what is evaluated.
* `Progress` — how far the evaluation has come.
* `Move`, `Job.move?` — what can happen, and its effect on the progress and the cache.
* `Job.report` — the result when nothing is left to do.
-/

namespace Distill

open Definition (NodeSet)

/-- What a step gives. -/
inductive StepResult where
  | value (v : ArtifactValue)
  | failure (f : Failure)
  /-- The step ended without any result; the text is what is told of its end. -/
  | panic (text : String)
  deriving Repr, Inhabited

/-- The evaluation of selected nodes for an archive. -/
structure Job where
  set : NodeSet
  graph : Graph
  archive : String
  /-- Do not take values of earlier runs. -/
  force : Bool
  /-- How many tasks may be in flight; zero is the same as one. -/
  limit : Nat
  /-- Which nodes are evaluated. -/
  selected : List Bool

/-- How far a task has come. -/
inductive Stage where
  | launched
  /-- The step is being done. -/
  | working
  | finished (outcome : NodeOutcome)
  deriving Repr, Inhabited

/-- A node in flight with the value that its step reads. -/
structure Task where
  node : Nat
  input : Option ArtifactValue
  stage : Stage
  deriving Repr, Inhabited

/-- How far an evaluation has come. -/
structure Progress where
  /-- The nodes whose source is settled, in ascending order. -/
  ready : List Nat
  /-- The nodes in flight, the latest last. -/
  tasks : List Task := []
  /-- The final states of the nodes that are settled. -/
  outcomes : List (Option NodeOutcome)
  cancelled : Bool := false
  /-- What has been told, in order. -/
  events : List Event := []
  /-- The nodes whose steps have been started, in order. -/
  calls : List Nat := []
  deriving Repr, Inhabited

/-- What can happen next. -/
inductive Move where
  /-- Launch the first node that is ready. -/
  | launch
  /-- A task looks into the cache and starts its step if it has to. -/
  | begin (node : Nat)
  /-- A step ends. -/
  | finish (node : Nat) (result : StepResult)
  /-- A task that has finished is settled. -/
  | settle (node : Nat)
  | cancel
  deriving Repr, Inhabited

/-- The failure of a node that is reached after the run was cancelled. -/
def Failure.runCancelled : Failure := ⟨.cancelled, "run was cancelled"⟩

/-- The failure of a node whose step ended without any result, with what is told of its end. -/
def Failure.aborted (text : String) : Failure := ⟨.exec, "node task aborted: " ++ text⟩

namespace Progress

/-- The task of a node. -/
def task? (p : Progress) (i : Nat) : Option Task := p.tasks.find? (·.node == i)

/-- The final state of a node. -/
def outcome? (p : Progress) (i : Nat) : Option NodeOutcome := (p.outcomes[i]?).join

/-- The task of a node at another stage. -/
def setStage (p : Progress) (i : Nat) (stage : Stage) : Progress :=
  { p with tasks := p.tasks.map fun t => if t.node = i then { t with stage } else t }

/-- Tell an event. -/
def tell (p : Progress) (e : Event) : Progress := { p with events := p.events ++ [e] }

/-- Whether nothing is left to do. -/
def isOver (p : Progress) : Bool := p.ready.isEmpty && p.tasks.isEmpty

end Progress

namespace Job

/-- How many tasks may be in flight. -/
def slots (j : Job) : Nat := max j.limit 1

/-- Whether a node is evaluated. -/
def isSelected (j : Job) (i : Nat) : Bool := j.selected.getD i false

/-- How many nodes are evaluated. -/
def total (j : Job) : Nat := (j.selected.filter id).length

/-- The name of the type of a node. -/
def typeName (j : Job) (i : Nat) : String := (j.set.nodes[i]?).elim "" (·.typeName)

/-- Nothing has been done: the roots are ready. -/
def start (j : Job) (cancelled : Bool) : Progress :=
  { ready := (List.range j.graph.size).filter fun i =>
      j.isSelected i && (j.graph.source i).isNone
    outcomes := List.replicate j.graph.size none
    cancelled
    events := [.runStarted j.archive j.total] }

/-! ## Settling -/

/-- The value that the step of a node reads, or the node whose failure is in the way. -/
def resolveInput (j : Job) (p : Progress) (i : Nat) : Except String (Option ArtifactValue) :=
  match j.graph.source i with
  | none => .ok none
  | some s =>
    match p.outcome? s with
    | some (.success v) | some (.cached v) => .ok (some v)
    | some (.blocked blocker) => .error blocker
    | some (.failed _) | none => .error (j.graph.name s)

/-- A node is settled; the selected nodes that read its output are ready. -/
def record (j : Job) (p : Progress) (i : Nat) (o : NodeOutcome) : Progress :=
  { p.tell (.ofOutcome j.archive (j.graph.name i) o) with
    outcomes := p.outcomes.set i (some o)
    ready := ((j.graph.dependents i).filter j.isSelected).foldl
      (fun ready d => insertAscending d ready) p.ready }

/-! ## Moves -/

/-- Launch the first node that is ready, if there is a slot. A node whose source has no
value is settled at once. -/
def launch? (j : Job) (p : Progress) : Option Progress :=
  match p.ready with
  | [] => none
  | i :: rest =>
    if j.slots ≤ p.tasks.length then none
    else
      let p := { p with ready := rest }
      match j.resolveInput p i with
      | .error blocker => some (j.record p i (.blocked blocker))
      | .ok input => some { p with tasks := p.tasks ++ [⟨i, input, .launched⟩] }

/-- The value of a node that an earlier run has stored. -/
def stored? (j : Job) (c : Cache) (i : Nat) : Option ArtifactValue :=
  if j.force then none
  else
    match c.get j.archive (j.graph.name i) with
    | .ok (some ⟨_, .succeeded, v⟩) => v
    | _ => none

/-- A task takes the value that is stored, or else starts its step; after a cancellation
it fails instead. -/
def begin? (j : Job) (p : Progress) (c : Cache) (i : Nat) : Option (Progress × Cache) :=
  match p.task? i with
  | some ⟨_, _, .launched⟩ =>
    match j.stored? c i with
    | some v => some (p.setStage i (.finished (.cached v)), c)
    | none =>
      let name := j.graph.name i
      let p := p.tell (.nodeStarted j.archive name (j.typeName i))
      if p.cancelled then
        some (p.setStage i (.finished (.failed .runCancelled)),
          (c.put j.archive (.failed name .runCancelled)).2)
      else some ({ p.setStage i .working with calls := p.calls ++ [i] }, c)
  | _ => none

/-- A step ends; its value or failure is stored, as far as the cache can. -/
def finish? (j : Job) (p : Progress) (c : Cache) (i : Nat) (r : StepResult) :
    Option (Progress × Cache) :=
  match p.task? i with
  | some ⟨_, _, .working⟩ =>
    let name := j.graph.name i
    match r with
    | .value v =>
      some (p.setStage i (.finished (.success v)),
        (c.put j.archive (.succeeded name v)).2)
    | .failure f =>
      some (p.setStage i (.finished (.failed f)), (c.put j.archive (.failed name f)).2)
    | .panic text => some (p.setStage i (.finished (.failed (.aborted text))), c)
  | _ => none

/-- A task that has finished is settled, when no other node can be launched before. -/
def settle? (j : Job) (p : Progress) (i : Nat) : Option Progress :=
  if (j.launch? p).isSome then none
  else
    match p.task? i with
    | some ⟨_, _, .finished o⟩ =>
      some (j.record { p with tasks := p.tasks.filter (·.node != i) } i o)
    | _ => none

/-- The effect of a move, if it can be made. -/
def move? (j : Job) (p : Progress) (c : Cache) : Move → Option (Progress × Cache)
  | .launch => (j.launch? p).map (·, c)
  | .begin i => j.begin? p c i
  | .finish i r => j.finish? p c i r
  | .settle i => (j.settle? p i).map (·, c)
  | .cancel => some ({ p with cancelled := true }, c)

/-! ## Results -/

/-- The conclusion of an analysis; it is unknown unless the node has a conclusion as its
value. -/
def conclusionOf (p : Progress) (i : Nat) (n : Definition.Node) (a : AnalysisStep) : Conclusion :=
  match (p.outcome? i).bind (·.value?) with
  | some (.conclusion c) => c
  | _ => Conclusion.unevaluated n.name a.level a.summary a.description

/-- The conclusions of all analyses, in the order of declaration. -/
def conclusions (j : Job) (p : Progress) : List Conclusion :=
  j.set.nodes.zipIdx.filterMap fun (n, i) => n.analysis?.map (conclusionOf p i n)

/-- The result: the nodes that are settled, in the order of the graph. -/
def report (j : Job) (p : Progress) : Report :=
  { archive := j.archive
    nodes := j.graph.order.filterMap fun i =>
      (p.outcome? i).map fun o => ⟨j.graph.name i, j.typeName i, o⟩
    conclusions := j.conclusions p }

/-- The event at the end. -/
def completed (r : Report) : Event := .runCompleted r.archive r.counts r.failed

end Job

end Distill
