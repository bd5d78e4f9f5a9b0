import Distill.Execution.Machine
import Distill.Step.Run

/-!
# Running jobs

An environment does the steps of nodes. A job is run to its end by always making the
first move that can be made: launch a node, or else let the oldest task go on.

## Main definitions

* `Environment` — what does the steps.
* `Environment.nextMoves` — the moves that are made next.
* `Environment.execute` — the whole evaluation of a job.
-/

namespace Distill

/-- What does the steps of nodes, with a state of its own. -/
structure Environment (σ : Type) where
  /-- The result of a step. -/
  perform (archive node : String) (s : Step) (input : Option ArtifactValue) : StateM σ StepResult
  /-- Whether the run is cancelled while the step is done. -/
  cancels (archive node : String) (s : Step) : Bool := false

/-- The result of doing something that can fail. -/
def StepResult.ofDoing {σ : Type} (act : Step.Doing σ ArtifactValue) : StateM σ StepResult :=
  fun w =>
    match act w with
    | (.ok v, w) => (.value v, w)
    | (.error f, w) => (.failure f, w)

namespace Environment

variable {σ : Type}

/-- All steps are done as they say; commands are run by an action that is given, and time is told by
a clock. -/
def ofCommands (command : (archive node : String) → ExecStep → Step.Doing σ ArtifactValue)
    (clock : StateM σ Elapsed) : Environment σ where
  perform archive node s input :=
    StepResult.ofDoing (s.run (command archive node) clock node input)

variable (env : Environment σ) (j : Job)

/-- The moves of a task that goes on. -/
def taskMoves (t : Task) : StateM σ (List Move) :=
  match t.stage with
  | .launched => pure [.begin t.node]
  | .working =>
    match j.set.nodes[t.node]? with
    | some n => do
      let result ← env.perform j.archive n.name n.step t.input
      return (if env.cancels j.archive n.name n.step then [.cancel] else []) ++
        [.finish t.node result]
    | none => pure []
  | .finished _ => pure [.settle t.node]

/-- The moves that are made next; none at the end. -/
def nextMoves (p : Progress) : StateM σ (List Move) :=
  if (j.launch? p).isSome then pure [.launch]
  else match p.tasks with
    | [] => pure []
    | t :: _ => env.taskMoves j t

/-- Make moves one after another; one that cannot be made is left out. -/
def makeMoves (p : Progress) (c : Cache) (ms : List Move) : Progress × Cache :=
  ms.foldl (fun (p, c) m => (j.move? p c m).getD (p, c)) (p, c)

/-- Make the next moves so many times. -/
def advance : Nat → Progress × Cache → StateM σ (Progress × Cache)
  | 0, s => pure s
  | n + 1, (p, c) => do advance n (makeMoves j p c (← env.nextMoves j p))

/-- The evaluation of a job to its end. Each node is launched, begun, finished and settled
at most once. -/
def execute (cancelled : Bool) (c : Cache) : StateM σ (Progress × Cache) :=
  env.advance j (4 * j.graph.size) (j.start cancelled, c)

end Environment

end Distill
