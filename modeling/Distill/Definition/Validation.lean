import Distill.Definition.Error
import Distill.Definition.NodeSet
import Distill.Definition.Record

/-!
# Validating records

A record becomes a node when its type is known, its fields are those of the type with
values of the right kind, and it has a source exactly if its step reads an input.

## Main definitions

* `Definition.stepOf` — the step of a type with its fields.
* `Definition.nodeOf` — the node of a record.
* `Definition.allowedFields` — the fields that belong to a type.
-/

namespace Distill.Definition

open Yaml (Value Complaint)

/-! ## Fields -/

/-- The fields of a type besides those of every record. -/
def allowedFields : String → Option (List String)
  | "exec" => some ["exec", "params", "timeout"]
  | "yaml2json" => some []
  | "splitlines" => some []
  | "jq" => some ["jq"]
  | "chain" => some ["chain"]
  | "analysis" => some ["level", "summary", "description"]
  | _ => none

/-- The value of a field; null is the same as no field. -/
def optional {α : Type} (decode : Value → Except Complaint α) (fields : List (String × Value))
    (field : String) : Except Error (Option α) :=
  match fields.lookup field with
  | none | some .null => .ok none
  | some v =>
    match decode v with
    | .ok a => .ok (some a)
    | .error c => .error (.of (.malformedField field c))

/-- The value of a field that must be there. -/
def required {α : Type} (decode : Value → Except Complaint α) (fields : List (String × Value))
    (field : String) : Except Error α := do
  match ← optional decode fields field with
  | some a => return a
  | none => throw (.of (.missingField field))

/-- Check that a text is a template of which all placeholders are known. -/
def checkTemplate (field text : String) : Except Error Unit :=
  match Template.parse text with
  | .error e => .error (.of (.invalidTemplate field e))
  | .ok t =>
    match t.placeholders.find? fun token => !Command.placeholders.contains token with
    | some token => .error (.of (.unknownPlaceholder token field))
    | none => .ok ()

/-! ## Steps -/

/-- The text of a field. -/
def text (v : Value) : Except Complaint String := asText "a string" v

/-- The step that runs a command. -/
def execOf (fields : List (String × Value)) : Except Error Step := do
  let command ← required text fields "exec"
  checkTemplate "exec" command
  let params := (← optional asTexts fields "params").getD []
  params.forM (checkTemplate "params")
  if !params.isEmpty then
    if let .error e := Command.withParams command then throw (.of (.invalidCommand e))
  let seconds ← optional asNatural fields "timeout"
  return .exec ⟨command, params, seconds.map (1000 * ·)⟩

/-- The step that applies a filter. -/
def filterOf (fields : List (String × Value)) : Except Error Step := do
  let expression ← required text fields "jq"
  match Filter.parse expression with
  | .ok f => return .filter f
  | .error e => throw (.of (.invalidFilter expression e))

/-- The step that draws a conclusion; its level is informational unless it is given. -/
def analysisOf (fields : List (String × Value)) : Except Error Step := do
  let level ← match ← optional text fields "level" with
    | none => pure Level.info
    | some name =>
      match Level.parse? name with
      | some level => pure level
      | none => throw (.of (.invalidLevel name))
  let summary := (← optional text fields "summary").getD ""
  let description := (← optional text fields "description").getD ""
  if let .error e := Template.parse description then throw (.of (.invalidDescription e))
  return .analysis ⟨level, summary, description⟩

/-- Check that a type is known and that fields belong to it. -/
def checkFields (type : String) (fields : List (String × Value)) (inChain : Bool) :
    Except Error Unit :=
  match allowedFields type with
  | none => .error (.of (.unknownType type))
  | some allowed =>
    if inChain && type = "analysis" then .error (.of .analysisInChain)
    else match fields.find? fun f => !allowed.contains f.1 with
      | some (field, _) => .error (.of (.foreignField field type))
      | none => .ok ()

/-- Check an entry of a chain, and give its type. -/
def entryType (r : Record) : Except Error String := do
  if r.name.isSome then throw (.of (.chainEntryField "name"))
  if r.source.isSome then throw (.of (.chainEntryField "source"))
  match r.type with
  | some type => return type
  | none => throw (.of (.missingField "type"))

/-- The step of a type with its fields; chains are nested at most `depth` times. -/
def stepWithin : Nat → String → List (String × Value) → Bool → Except Error Step
  | depth, type, fields, inChain => do
    checkFields type fields inChain
    match type with
    | "exec" => execOf fields
    | "yaml2json" => return .decodeYaml
    | "splitlines" => return .splitLines
    | "jq" => filterOf fields
    | "chain" =>
      let entries ← required Record.listOfValue fields "chain"
      if entries.isEmpty then throw (.of .emptyChain)
      match depth with
      | 0 => throw (.of .emptyChain)
      | depth + 1 =>
        return .chain (← entries.mapM fun r => do
          stepWithin depth (← entryType r) r.fields true)
    | "analysis" => analysisOf fields
    | type => throw (.of (.unknownType type))

mutual

/-- How deep collections are nested. -/
def depth : Value → Nat
  | .sequence items => depthOfItems items + 1
  | .mapping entries => depthOfEntries entries + 1
  | .tagged _ v => depth v
  | _ => 0

/-- The greatest depth of an item. -/
def depthOfItems : List Value → Nat
  | [] => 0
  | v :: rest => max (depth v) (depthOfItems rest)

/-- The greatest depth of the value of an entry. -/
def depthOfEntries : List (Value × Value) → Nat
  | [] => 0
  | (_, v) :: rest => max (depth v) (depthOfEntries rest)

end

/-- The step of a type with its fields. A chain inside a chain is a value inside its
value, so that the depth of the values is enough. -/
def stepOf (type : String) (fields : List (String × Value)) (inChain : Bool) : Except Error Step :=
  stepWithin ((fields.map fun f => depth f.2).foldl max 0 + 1) type fields inChain

/-! ## Nodes -/

/-- The node of a record. -/
def nodeOf (r : Record) : Except Error Node := do
  let name := trimBlank (r.name.getD "")
  if name.isEmpty then throw (.of (.missingField "name"))
  match r.type with
  | none => throw ((Error.of (.missingField "type")).withNode name)
  | some type =>
    let step ← (stepOf type r.fields false).mapError (·.orNode name)
    let source := r.source.filter fun s => !(trimBlank s).isEmpty
    match step, source with
    | .exec _, some _ => throw ((Error.of (.foreignField "source" "exec")).withNode name)
    | .chain steps, some _ =>
      if !Step.headTakesInput steps then
        throw ((Error.of .sourceOfCommandChain).withNode name)
    | step, none =>
      if step.takesInput then throw ((Error.of (.missingField "source")).withNode name)
    | _, _ => pure ()
    return ⟨name, source, step⟩

end Distill.Definition
