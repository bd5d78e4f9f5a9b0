import Distill.Artifact.Value
import Distill.Step.Basic
import Distill.Template
import Distill.Text.Basic

/-!
# Analyses

An analysis turns its input into a conclusion. An object among the entries that names
places in files becomes a result with links: the placeholders of its description are
bound to the places.

## Main definitions

* `Step.entry` — the result of one entry, and the detail if a placeholder was bound.
* `Step.conclude` — the conclusion of an analysis.
-/

namespace Distill.Step

/-- The token to which a record that is itself a place is bound. -/
def flatToken : String := "0"

/-- The place that a record describes: a path and a text, with numbers where they are
unsigned integers. -/
def locationOf (fields : List (String × Json)) : Option Location := do
  let path ← (← Json.field? "path" fields).string?
  let text ← Json.field? "text" fields
  let number (name : String) : Option Nat := (Json.field? name fields).bind Json.nat64?
  return {
    path
    firstLine := number "first_line"
    lastLine := number "last_line"
    offset := number "offset"
    length := number "length"
    text := text.plain }

/-- The template of a record: its own description, else that of the node, else the
placeholder of the record itself. -/
def entryDescription (fields : List (String × Json)) (nodeDescription : String) : String :=
  match Json.field? "description" fields with
  | some (.string own) =>
    if !own.isEmpty then own
    else if !nodeDescription.isEmpty then nodeDescription
    else "\x7b" ++ flatToken ++ "\x7d"
  | _ =>
    if !nodeDescription.isEmpty then nodeDescription
    else "\x7b" ++ flatToken ++ "\x7d"

/-- The place that a token of a record is bound to: the object under that key, or the
record itself for the flat token. -/
def bindToken (fields : List (String × Json)) (token : String) : Option Location :=
  match Json.field? token fields with
  | some (.object nested) => locationOf nested
  | _ => if token = flatToken then locationOf fields else none

/-- The result and the detail of a record of which some placeholder is bound. -/
def recordDetail (fields : List (String × Json)) (nodeDescription : String) :
    Option (String × Detail) :=
  let description := entryDescription fields nodeDescription
  match Template.parse description with
  | .error _ => none
  | .ok t =>
    let bound := sortKeys (t.placeholders.filterMap fun token =>
      (bindToken fields token).map (token, ·))
    if bound.isEmpty then none
    else some (t.render fun token => (bound.lookup token).map Location.text, ⟨description, bound⟩)

/-- The result of an entry, and its detail if there is one. -/
def entry (nodeDescription : String) (v : Json) : String × Option Detail :=
  match v with
  | .object fields =>
    match recordDetail fields nodeDescription with
    | some (result, detail) => (result, some detail)
    | none => (v.text, none)
  | v => (v.plain, none)

/-- The results and details of entries. -/
def entries (nodeDescription : String) (vs : List Json) : List String × List Detail :=
  let es := vs.map (entry nodeDescription)
  (es.map (·.1), es.filterMap (·.2))

/-- The results and details of an input. The lines of octets are results; null has
none; a conclusion keeps its own. -/
def findings (nodeDescription : String) : ArtifactValue → List String × List Detail
  | .bytes b => (textLines b.lossyText, [])
  | .document .null => ([], [])
  | .document (.array items) | .sequence items => entries nodeDescription items
  | .document v => entries nodeDescription [v]
  | .conclusion c => (c.results, c.details)

/-- The conclusion of an analysis that took some time. It is abnormal exactly when the input holds
something. -/
def conclude (node : String) (a : AnalysisStep) (input : ArtifactValue) (spent : Elapsed) :
    Conclusion :=
  let (results, details) := findings a.description input
  let abnormal := !input.isEmpty
  { name := node, level := a.level, summary := a.summary, description := a.description,
    results, details, abnormal, normal := !abnormal, unknown := false,
    duration := spent.toDouble }

end Distill.Step
