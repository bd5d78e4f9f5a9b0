import Distill.Filter.Expr
import Distill.Filter.Order
import Distill.Filter.Parser
import Distill.Json.Printer
import Distill.Pattern.Reader

/-!
# Applying filter expressions

An expression takes a value to the list of its outputs, or to the first error.

## Main definitions

* `Filter.EvalError` — why an expression has no outputs.
* `Filter.Expr.eval` — the outputs for an input.
* `Filter` — a filter, with the text it was read from.
-/

namespace Distill.Filter

open Json (Kind)

/-- Why an expression has no outputs. -/
inductive EvalError where
  | noField (kind : Kind) (name : String)
  | noIndex (kind : Kind)
  | notIterable (kind : Kind)
  | negativeDepth
  | notFlattenable (kind : Kind)
  | noKeys (kind : Kind)
  | noLength
  | incomparable (kind other : Kind)
  | notString (function : String) (kind : Kind)
  | notJoinable (kind : Kind)
  | invalidPattern
  deriving DecidableEq, Repr

/-- The wording of an error. -/
def EvalError.message : EvalError → String
  | noField kind name => "cannot index " ++ kind.name ++ " with \"" ++ name ++ "\""
  | noIndex kind => "cannot index " ++ kind.name ++ " with number"
  | notIterable kind => "cannot iterate over " ++ kind.name
  | negativeDepth => "flatten depth must not be negative"
  | notFlattenable kind => "cannot flatten " ++ kind.name
  | noKeys kind => kind.name ++ " has no keys"
  | noLength => "boolean has no length"
  | incomparable kind other =>
    kind.name ++ " and " ++ other.name ++ " cannot have their containment checked"
  | notString function kind => function ++ " requires string input, got " ++ kind.name
  | notJoinable kind => "cannot join " ++ kind.name
  | invalidPattern => "invalid regular expression"

/-- The outputs of an expression, or the first error. -/
abbrev Outputs := Except EvalError (List Json)

/-! ## Helpers of functions -/

/-- The string a function needs. -/
def expectString (function : String) : Json → Except EvalError String
  | .string s => .ok s
  | v => .error (.notString function v.kind)

/-- The outputs for each of some values, one after another. -/
def eachOutput (f : Json → Outputs) (vs : List Json) : Outputs := (vs.mapM f).map List.flatten

/-- The greatest depth to which items are flattened. -/
def maxFlattenDepth : Nat := Nat.pow 2 64 - 1

/-- The depth a number asks for: its integral part, at most the greatest depth. -/
def flattenDepth : Json → Except EvalError Nat
  | .number n =>
    let x := n.toDouble
    if 0 ≤ x.key then .ok (min x.truncate.toNat maxFlattenDepth) else .error .negativeDepth
  | _ => .error .negativeDepth

mutual

/-- The items of an array in its place, down to a depth. -/
def flattenItem : Nat → Json → List Json
  | depth + 1, .array items => flattenItems depth items
  | _, v => [v]

/-- The items with the arrays among them replaced by their items, down to a depth. -/
def flattenItems : Nat → List Json → List Json
  | _, [] => []
  | depth, v :: rest => flattenItem depth v ++ flattenItems depth rest

end

/-- The items of an array. -/
def itemsFor (fault : Kind → EvalError) : Json → Except EvalError (List Json)
  | .array items => .ok items
  | v => .error (fault v.kind)

/-- The parts of a text between the places where a separator stands. `part` is the part
that is being read, last character first; `skip` is what is left of a separator. -/
def splitParts (sep : List Char) : Nat → List Char → List Char → List (List Char)
  | _, part, [] => [part.reverse]
  | skip + 1, part, _ :: rest => splitParts sep skip part rest
  | 0, part, c :: rest =>
    if sep.isPrefixOf (c :: rest) then part.reverse :: splitParts sep (sep.length - 1) [] rest
    else splitParts sep 0 (c :: part) rest

/-- The parts of a text between separators. An empty text has none; an empty separator
stands before, between and after all characters. -/
def splitText (s sep : String) : List String :=
  if s.isEmpty then []
  else if sep.isEmpty then "" :: (s.toList.map String.singleton ++ [""])
  else (splitParts sep.toList 0 [] s.toList).map String.ofList

/-- The text of an item that is joined. -/
def joinText : Json → Except EvalError String
  | .null => .ok ""
  | .string s => .ok s
  | .bool b => .ok (Json.bool b).text
  | .number n => .ok n.text
  | v => .error (.notJoinable v.kind)

/-- The size of a value: characters, items, fields, or the absolute value of a number. -/
def lengthOf : Json → Except EvalError Json
  | .null => .ok (.ofNat 0)
  | .bool _ => .error .noLength
  | .number n => .ok (literalNumber (.finite n.toDouble.abs))
  | .string s => .ok (.ofNat s.length)
  | .array items => .ok (.ofNat items.length)
  | .object fields => .ok (.ofNat fields.length)

/-- The keys of an object, or the places of an array. -/
def keysOf : Json → Except EvalError Json
  | .object fields => .ok (.array (fields.map fun f => .string f.1))
  | .array items => .ok (.array ((List.range items.length).map .ofNat))
  | v => .error (.noKeys v.kind)

/-- Whether a comparison holds of values in some order. -/
def Comparison.holds (op : Comparison) (o : Ordering) : Bool :=
  match op with
  | eq => o == .eq
  | ne => o != .eq
  | lt => o == .lt
  | le => o != .gt
  | gt => o == .gt
  | ge => o != .lt

/-- The item at a place, or `null`. -/
def itemAt (items : List Json) (i : Int) : Json :=
  let place := if i < 0 then (items.length : Int) + i else i
  if place < 0 then .null else (items[place.toNat]?).getD .null

/-- The outputs of a function without an argument. -/
def Nullary.eval : Nullary → Json → Outputs
  | flatten, v => do
    let items ← itemsFor .notFlattenable v
    return [.array (flattenItems maxFlattenDepth items)]
  | keys, v => (keysOf v).map ([·])
  | length, v => (lengthOf v).map ([·])
  | values, v => .ok (match v with
    | .null => []
    | v => [v])
  | empty, _ => .ok []
  | not, v => .ok [.bool !v.isTruthy]
  | tostring, v => .ok [.string v.plain]
  | asciiDowncase, v => do
    let s ← expectString "ascii_downcase" v
    return [.string (s.map Char.toLower)]
  | asciiUpcase, v => do
    let s ← expectString "ascii_upcase" v
    return [.string (s.map Char.toUpper)]

/-- The output of a function for its input and one output of its argument. -/
def Pairing.eval (f : Pairing) (input arg : Json) : Except EvalError Json :=
  match f with
  | contains =>
    if input.kind = arg.kind then .ok (.bool (input.contains arg))
    else .error (.incomparable input.kind arg.kind)
  | startswith => do
    let s ← expectString f.name input
    let part ← expectString f.name arg
    return .bool (part.toList.isPrefixOf s.toList)
  | endswith => do
    let s ← expectString f.name input
    let part ← expectString f.name arg
    return .bool (part.toList.isSuffixOf s.toList)
  | split => do
    let s ← expectString f.name input
    let sep ← expectString f.name arg
    return .array ((splitText s sep).map .string)
  | join => do
    let items ← itemsFor .notJoinable input
    let sep ← expectString f.name arg
    let parts ← items.mapM joinText
    return .string (sep.intercalate parts)
  | test => do
    let s ← expectString f.name input
    let text ← expectString f.name arg
    match Pattern.parse? text with
    | some p => return .bool (p.isMatch s)
    | none => .error .invalidPattern

/-- What a function asks of its input before its argument is evaluated. -/
def Pairing.checkInput (f : Pairing) (input : Json) : Except EvalError Unit :=
  match f with
  | contains => .ok ()
  | join => (itemsFor .notJoinable input).map fun _ => ()
  | startswith | endswith | split | test => (expectString f.name input).map fun _ => ()

namespace Expr

/-- The outputs of an expression for an input. -/
def eval : Expr → Json → Outputs
  | identity, v => .ok [v]
  | field name, v =>
    match v with
    | .object fields => .ok [(Json.field? name fields).getD .null]
    | .null => .ok [.null]
    | v => .error (.noField v.kind name)
  | index i, v =>
    match v with
    | .array items => .ok [itemAt items i]
    | .null => .ok [.null]
    | v => .error (.noIndex v.kind)
  | iterate, v =>
    match v with
    | .array items => .ok items
    | .object fields => .ok (fields.map (·.2))
    | v => .error (.notIterable v.kind)
  | pipe left right, v => do
    let vs ← left.eval v
    eachOutput right.eval vs
  | comma left right, v => do
    let vs ← left.eval v
    let ws ← right.eval v
    return vs ++ ws
  | literal w, _ => .ok [w]
  | collect inner, v => do
    let vs ← inner.eval v
    return [.array vs]
  | compare op left right, v => do
    let rights ← right.eval v
    let lefts ← left.eval v
    return lefts.flatMap fun l => rights.map fun r => .bool (op.holds (l.order r))
  | and left right, v => do
    let vs ← left.eval v
    eachOutput (fun l =>
      if l.isTruthy then (right.eval v).map (·.map fun r => .bool r.isTruthy)
      else .ok [.bool false]) vs
  | or left right, v => do
    let vs ← left.eval v
    eachOutput (fun l =>
      if l.isTruthy then .ok [.bool true]
      else (right.eval v).map (·.map fun r => .bool r.isTruthy)) vs
  | attempt inner, v =>
    match inner.eval v with
    | .ok vs => .ok vs
    | .error _ => .ok []
  | call f, v => f.eval v
  | apply f arg, v =>
    match f with
    | .select => do
      let conds ← arg.eval v
      return conds.filterMap fun c => if c.isTruthy then some v else none
    | .map => do
      let items ← itemsFor .notIterable v
      let vs ← eachOutput arg.eval items
      return [.array vs]
    | .flatten => do
      let args ← arg.eval v
      let depths ← args.mapM flattenDepth
      let items ← itemsFor .notFlattenable v
      return depths.map fun depth => .array (flattenItems depth items)
    | .pairing f => do
      f.checkInput v
      let args ← arg.eval v
      args.mapM (f.eval v)

end Expr

end Distill.Filter

/-! ## Filters

A filter keeps the text it was read from, which messages and definitions show. -/

namespace Distill

/-- A filter: its text and the expression it denotes. -/
structure Filter where
  expression : String
  expr : Filter.Expr
  deriving Repr, Inhabited

namespace Filter

/-- The filter of a text. -/
def parse (expression : String) : Except SyntaxError Filter :=
  (Expr.parse expression).map (⟨expression, ·⟩)

/-- The outputs for one input. -/
def apply (f : Filter) (v : Json) : Outputs := f.expr.eval v

end Filter

end Distill
