import Distill.Filter.Eval
import Distill.Level

/-!
# Steps

What a node of a definition does with its input.

## Main definitions

* `Step` — the kinds of steps.
* `Step.takesInput` — whether a step reads the output of another node.
-/

namespace Distill

/-- A command run for an archive. The command and its parameters are templates. -/
structure ExecStep where
  command : String
  params : List String
  /-- A limit of its own, in milliseconds. -/
  timeout : Option Nat
  deriving DecidableEq, Repr, Inhabited

/-- How the input of an analysis becomes a conclusion. -/
structure AnalysisStep where
  level : Level
  summary : String
  /-- The template for results that do not bring their own. -/
  description : String
  deriving DecidableEq, Repr, Inhabited

/-- What a node does. -/
inductive Step where
  | exec (e : ExecStep)
  /-- Decode a stream of YAML documents. -/
  | decodeYaml
  | filter (f : Filter)
  | splitLines
  /-- Steps of which each reads the output of the one before it. -/
  | chain (steps : List Step)
  | analysis (a : AnalysisStep)
  deriving Repr, Inhabited

namespace Step

/-- The name of the kind of a step. -/
def typeName : Step → String
  | exec _ => "exec"
  | decodeYaml => "yaml2json"
  | filter _ => "jq"
  | splitLines => "splitlines"
  | chain _ => "chain"
  | analysis _ => "analysis"

/-- The names of the kinds. -/
def typeNames : List String := ["exec", "yaml2json", "jq", "splitlines", "chain", "analysis"]

mutual

/-- Whether the step reads an input; a chain does if its first step does. -/
def takesInput : Step → Bool
  | exec _ => false
  | chain steps => headTakesInput steps
  | _ => true

/-- Whether the first of some steps reads an input. -/
def headTakesInput : List Step → Bool
  | [] => false
  | s :: _ => takesInput s

end

/-- The command that a step starts with, and the steps that read its output. -/
def commandHead? : Step → Option (ExecStep × List Step)
  | exec e => some (e, [])
  | chain (exec e :: rest) => some (e, rest)
  | _ => none

end Step

end Distill
