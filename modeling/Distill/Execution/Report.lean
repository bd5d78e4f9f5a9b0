import Distill.Artifact.Value
import Distill.Graph.Basic

/-!
# Outcomes, events and reports

## Main definitions

* `NodeOutcome` — the final state of a node within a run.
* `Event` — what is told while an archive is evaluated.
* `Report` — the result of evaluating the nodes of a set for an archive.
-/

namespace Distill

/-- The final state of a node within a run. -/
inductive NodeOutcome where
  /-- The step was done and gave a value. -/
  | success (value : ArtifactValue)
  /-- A value of an earlier run was taken. -/
  | cached (value : ArtifactValue)
  | failed (failure : Failure)
  /-- Nothing was tried, because a node on the way from a root has failed. -/
  | blocked (blocker : String)
  deriving Repr, Inhabited

namespace NodeOutcome

/-- The value of a node that can be used. -/
def value? : NodeOutcome → Option ArtifactValue
  | success v | cached v => some v
  | failed _ | blocked _ => none

/-- Whether the node has a value. -/
def isUsable (o : NodeOutcome) : Bool := o.value?.isSome

/-- Why the node failed. -/
def failure? : NodeOutcome → Option Failure
  | failed f => some f
  | success _ | cached _ | blocked _ => none

/-- Whether the node was tried in vain. -/
def isFailed (o : NodeOutcome) : Bool := o.failure?.isSome

/-- The node that has failed before. -/
def blockedBy? : NodeOutcome → Option String
  | blocked blocker => some blocker
  | success _ | cached _ | failed _ => none

/-- The name of the state. -/
def label : NodeOutcome → String
  | success _ => "success"
  | cached _ => "cached"
  | failed _ => "failed"
  | blocked _ => "upstream failed"

end NodeOutcome

/-- What is told while an archive is evaluated. -/
inductive Event where
  | runStarted (archive : String) (total : Nat)
  /-- No value of an earlier run can be taken. -/
  | nodeStarted (archive node type : String)
  | nodeCompleted (archive node : String) (outcome : NodeOutcome)
  | nodeCached (archive node : String)
  | nodeSkipped (archive node blocker : String)
  | runCompleted (archive : String) (counts : LevelCounts) (failed : Nat)
  deriving Repr, Inhabited

/-- How the end of a node is told. -/
def Event.ofOutcome (archive node : String) : NodeOutcome → Event
  | .cached _ => nodeCached archive node
  | .blocked blocker => nodeSkipped archive node blocker
  | o => nodeCompleted archive node o

/-- The final state of a node with its name and type. -/
structure NodeReport where
  name : String
  type : String
  outcome : NodeOutcome
  deriving Repr, Inhabited

/-- The result of evaluating the nodes of a set for an archive. -/
structure Report where
  archive : String
  /-- The nodes that were evaluated, in the order of the graph. -/
  nodes : List NodeReport
  /-- One conclusion for each analysis, in the order of declaration. -/
  conclusions : List Conclusion
  deriving Repr, Inhabited

namespace Report

/-- How many conclusions with findings there are at each level. -/
def counts (r : Report) : LevelCounts := LevelCounts.ofConclusions r.conclusions

/-- The conclusions with findings. -/
def findings (r : Report) : List Conclusion := r.conclusions.filter (·.abnormal)

/-- How many nodes have failed. -/
def failed (r : Report) : Nat := (r.nodes.filter (·.outcome.isFailed)).length

/-- How many nodes have a value. -/
def succeeded (r : Report) : Nat := (r.nodes.filter (·.outcome.isUsable)).length

/-- What a list of archives shows of the run. -/
def summary (r : Report) : ArchiveSummary :=
  { archive := r.archive, analysed := true, conclusions := r.counts }

end Report

end Distill
