import Distill.Filter.Token
import Distill.Json.Value

/-!
# Filter expressions

## Main definitions

* `Filter.Expr` — the expressions. A function takes no argument or one, so functions of
  the two kinds are two types and no expression has a wrong number of arguments.
* `Filter.Expr.call?` — the function of a name applied to arguments.
* `Filter.literalNumber` — the value of a number written in a filter.
-/

namespace Distill.Filter

/-- The comparisons. -/
inductive Comparison where
  | eq | ne | lt | le | gt | ge
  deriving DecidableEq, Repr, Inhabited

/-- The functions without an argument. -/
inductive Nullary where
  | flatten | keys | length | values | empty | not | tostring | asciiDowncase | asciiUpcase
  deriving DecidableEq, Repr, Inhabited

/-- The functions of one argument that pair their input with each output of the
argument. -/
inductive Pairing where
  | contains | startswith | endswith | split | join | test
  deriving DecidableEq, Repr, Inhabited

/-- The functions of one argument. -/
inductive Unary where
  | select | map | flatten
  | pairing (f : Pairing)
  deriving DecidableEq, Repr, Inhabited

/-- The name a function is called by. -/
def Nullary.name : Nullary → String
  | flatten => "flatten"
  | keys => "keys"
  | length => "length"
  | values => "values"
  | empty => "empty"
  | not => "not"
  | tostring => "tostring"
  | asciiDowncase => "ascii_downcase"
  | asciiUpcase => "ascii_upcase"

/-- The name a function is called by. -/
def Pairing.name : Pairing → String
  | contains => "contains"
  | startswith => "startswith"
  | endswith => "endswith"
  | split => "split"
  | join => "join"
  | test => "test"

/-- The name a function is called by. -/
def Unary.name : Unary → String
  | select => "select"
  | map => "map"
  | flatten => "flatten"
  | pairing f => f.name

/-- All functions without an argument. -/
def Nullary.all : List Nullary :=
  [flatten, keys, length, values, empty, not, tostring, asciiDowncase, asciiUpcase]

/-- All functions of one argument. -/
def Unary.all : List Unary :=
  [select, map, flatten, pairing .contains, pairing .startswith, pairing .endswith,
   pairing .split, pairing .join, pairing .test]

/-- A filter expression. -/
inductive Expr where
  /-- The input itself. -/
  | identity
  /-- The value of a key. -/
  | field (name : String)
  /-- An item by its place; negative places count from the end. -/
  | index (i : Int)
  /-- All items, or the values of all fields. -/
  | iterate
  /-- Every output of the left is an input of the right. -/
  | pipe (left right : Expr)
  /-- The outputs of the left, then those of the right. -/
  | comma (left right : Expr)
  | literal (v : Json)
  /-- The array of all outputs. -/
  | collect (inner : Expr)
  | compare (op : Comparison) (left right : Expr)
  | and (left right : Expr)
  | or (left right : Expr)
  /-- The outputs, or none if there is an error. -/
  | attempt (inner : Expr)
  | call (f : Nullary)
  | apply (f : Unary) (arg : Expr)
  deriving Repr, Inhabited

namespace Expr

/-- The function of a name and a number of arguments. -/
def call? (name : String) : List Expr → Option Expr
  | [] => (Nullary.all.find? (·.name == name)).map .call
  | [arg] => (Unary.all.find? (·.name == name)).map (.apply · arg)
  | _ => none

/-- A selector applied to what stands before it; nothing stands before the first. -/
def pipeInto : Expr → Expr → Expr
  | identity, right => right
  | left, right => pipe left right

end Expr

/-- The value of a number: integral numbers below `9 · 10 ^ 15` in size are integers,
other finite ones doubles, and an infinity is `null`. -/
def literalNumber : Binary64 → Json
  | .finite x =>
    if x.isIntegral ∧ x.magnitude < 9000000000000000 * Double.unitsPerOne then
      .ofInt x.truncate
    else .number (.real x)
  | _ => .null

end Distill.Filter
