import Distill.Step.Analysis
import Distill.Step.Basic
import Distill.Yaml.Decode

/-!
# Running steps

Commands are run by an action that is given, which may change a state of its own, and time is told
by a clock; everything else is done here and changes nothing.

## Main definitions

* `Step.lines`, `Step.decode`, `Step.applyFilter` — what steps make of their input.
* `Step.Doing` — an action that can fail.
* `Step.run` — the output of a step for an input.
* `Step.runChain` — the output of steps that are piped together.
-/

namespace Distill.Step

/-! ## Lines -/

/-- The sequence of the lines of the text of a value. -/
def lines (input : ArtifactValue) : ArtifactValue :=
  .sequence ((textLines input.text).map .string)

/-! ## Decoding

A text becomes the document it holds, or the sequence of its documents. Values that
have structure already stay as they are, except that strings are texts. -/

/-- The value of a YAML text: a blank one is null, one document is itself, and any other
number of documents is a sequence. -/
def decodeText (s : String) : Except Failure ArtifactValue :=
  if (trimBlank s).isEmpty then .ok (.document .null)
  else
    match Yaml.readJson s with
    | .error e => .error ⟨.decode, "invalid YAML: " ++ e.message⟩
    | .ok [v] => .ok (.document v)
    | .ok vs => .ok (.sequence vs)

/-- The value that the text of an artifact denotes. -/
def decode (input : ArtifactValue) : Except Failure ArtifactValue :=
  match input with
  | .bytes _ | .sequence _ | .document (.string _) => decodeText input.text
  | .document v => .ok (.document v)
  | .conclusion _ => .error ⟨.decode, "cannot decode a conclusion as YAML"⟩

/-! ## Filtering

A filter is applied to each document of its input; all outputs together are one
sequence. -/

/-- The documents of octets: a stream of JSON values, or else their text as one string. -/
def documentsOfBytes (b : Bytes) : List Json :=
  ((b.text?.bind Json.parseStream?)).getD [.string b.lossyText]

/-- The documents a filter is applied to. -/
def documents : ArtifactValue → List Json
  | .bytes b => documentsOfBytes b
  | .document v => [v]
  | .sequence items => items
  | .conclusion c => [c.toJson.sort]

/-- How a failing filter is reported. -/
def filterFailure (f : Filter) (e : Filter.EvalError) : Failure :=
  ⟨.filter, quoted f.expression ++ ": " ++ e.message⟩

/-- The outputs of a filter for all documents of a value. -/
def applyFilter (f : Filter) (input : ArtifactValue) : Except Failure ArtifactValue :=
  match Filter.eachOutput f.apply (documents input) with
  | .ok vs => .ok (.sequence vs)
  | .error e => .error (filterFailure f e)

/-! ## Running -/

/-- An action on a state that gives a value or a failure. -/
abbrev Doing (σ : Type) (α : Type) : Type := ExceptT Failure (StateM σ) α

/-- A result that leaves the state alone. -/
def Doing.lift {σ α : Type} (r : Except Failure α) : Doing σ α := fun w => (r, w)

/-- The input of a step that needs one. -/
def requireInput (s : Step) (input : Option ArtifactValue) : Except Failure ArtifactValue :=
  match input with
  | some v => .ok v
  | none => .error ⟨.decode, s.typeName ++ " step has no input artifact"⟩

mutual

/-- The output of a step of a node for an input. The clock tells how long an analysis took. -/
def run {σ : Type} (command : ExecStep → Doing σ ArtifactValue) (clock : StateM σ Elapsed)
    (node : String) (s : Step) (input : Option ArtifactValue) : Doing σ ArtifactValue :=
  match s with
  | exec e => command e
  | decodeYaml => .lift do decode (← requireInput .decodeYaml input)
  | filter f => .lift do applyFilter f (← requireInput (.filter f) input)
  | splitLines => .lift do return lines (← requireInput .splitLines input)
  | chain steps => runChain command clock node steps input
  | analysis a => do
    let v ← Doing.lift (requireInput (.analysis a) input)
    return .conclusion (conclude node a v (← ExceptT.lift clock))

/-- The output of the last of some steps, each of which reads the output of the one
before it. -/
def runChain {σ : Type} (command : ExecStep → Doing σ ArtifactValue) (clock : StateM σ Elapsed)
    (node : String) (steps : List Step) (input : Option ArtifactValue) : Doing σ ArtifactValue :=
  match steps with
  | [] => match input with
    | some v => pure v
    | none => throw ⟨.decode, "empty chain"⟩
  | s :: rest => do
    let output ← run command clock node s input
    runChain command clock node rest (some output)

end

end Distill.Step
