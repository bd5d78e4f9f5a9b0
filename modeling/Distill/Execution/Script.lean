import Distill.Execution.Environment
import Distill.Step.Invocation

/-!
# Scripted commands

Prepared answers stand in for the commands of nodes, so that definitions can be tried
out without running anything. A command without a prepared answer gives its own text.

## Main definitions

* `PreparedAnswer` — what stands in for the command of a node.
* `Environment.scripted` — steps whose first command is answered from a list.
-/

namespace Distill

/-- How a prepared answer ends. -/
inductive PreparedResult where
  | output (data : Bytes)
  | failure (f : Failure)
  | panic (text : String)
  deriving Repr, Inhabited

/-- What stands in for the command of a node. -/
structure PreparedAnswer where
  node : String
  /-- Only for this archive. -/
  archive : Option String := none
  /-- The run is cancelled meanwhile. -/
  cancels : Bool := false
  result : PreparedResult
  deriving Repr, Inhabited

namespace PreparedAnswer

/-- Whether the answer is for a node of an archive. -/
def isFor (a : PreparedAnswer) (archive node : String) : Bool :=
  a.node == node && a.archive.all (· == archive)

/-- The first answer for the command that a step starts with. -/
def find? (answers : List PreparedAnswer) (archive node : String) (s : Step) :
    Option PreparedAnswer :=
  s.commandHead?.bind fun _ => answers.find? (·.isFor archive node)

end PreparedAnswer

/-- The command and its parameters, each on a line of its own. -/
def ExecStep.echo (e : ExecStep) (site : CommandSite) (node : String) :
    Except Failure ArtifactValue := do
  let (command, params) ← e.rendered site node
  return .bytes (Bytes.ofString (String.join ((command :: params).map (· ++ "\n"))))

namespace Environment

variable {σ : Type}

/-- Steps that start with a command have it answered from a list, or by its own text;
everything else is done as in an environment of commands. -/
def scripted (answers : List PreparedAnswer) (site : (archive : String) → CommandSite)
    (command : (archive node : String) → ExecStep → Step.Doing σ ArtifactValue)
    (clock : StateM σ Elapsed) : Environment σ where
  perform archive node s input :=
    match s.commandHead?, PreparedAnswer.find? answers archive node s with
    | some _, some ⟨_, _, _, .panic text⟩ => pure (.panic text)
    | some _, some ⟨_, _, _, .failure f⟩ => pure (.failure f)
    | some (_, rest), some ⟨_, _, _, .output data⟩ =>
      StepResult.ofDoing (Step.runChain (command archive node) clock node rest (some (.bytes data)))
    | some (e, rest), none =>
      StepResult.ofDoing do
        let output ← Step.Doing.lift (e.echo (site archive) node)
        Step.runChain (command archive node) clock node rest (some output)
    | none, _ => StepResult.ofDoing (s.run (command archive node) clock node input)
  cancels archive node s :=
    ((PreparedAnswer.find? answers archive node s).map (·.cancels)).getD false

end Environment

end Distill
