import Distill.Json.Value

/-!
# Order and containment of values

## Main definitions

* `Json.order` — the order of the filter language: `null`, `false`, `true`, numbers by
  their doubles, strings, arrays, objects.
* `Json.contains` — whether a value holds another of the same kind.
-/

namespace Distill

namespace Json

/-- The kinds of values. -/
inductive Kind where
  | null | boolean | number | string | array | object
  deriving DecidableEq, Repr, Inhabited

/-- How messages name a kind. -/
def Kind.name : Kind → String
  | null => "null"
  | boolean => "boolean"
  | number => "number"
  | string => "string"
  | array => "array"
  | object => "object"

/-- The kind of a value. -/
def kind : Json → Kind
  | .null => .null
  | .bool _ => .boolean
  | .number _ => .number
  | .string _ => .string
  | .array _ => .array
  | .object _ => .object

/-- Whether a value counts as true: all do but `null` and `false`. -/
def isTruthy : Json → Bool
  | .null | .bool false => false
  | _ => true

/-! ## Order -/

/-- Where values of different kinds stand. -/
def rank : Json → Nat
  | .null => 0
  | .bool false => 1
  | .bool true => 2
  | .number _ => 3
  | .string _ => 4
  | .array _ => 5
  | .object _ => 6

/-- Keys compared one after another, then by their number. -/
def orderKeys : List String → List String → Ordering
  | [], [] => .eq
  | [], _ :: _ => .lt
  | _ :: _, [] => .gt
  | k :: ks, l :: ls => (compare k l).then (orderKeys ks ls)

mutual

/-- The order of values. Objects are compared by their keys first and by their values
under equal keys. -/
def order : Json → Json → Ordering
  | .number m, .number n => m.toDouble.compare n.toDouble
  | .string s, .string t => compare s t
  | .array xs, .array ys => orderItems xs ys
  | .object fs, .object gs =>
    (orderKeys (fs.map (·.1)) (gs.map (·.1))).then (orderValues fs gs)
  | v, w => compare v.rank w.rank

/-- Items compared one after another, then by their number. -/
def orderItems : List Json → List Json → Ordering
  | [], [] => .eq
  | [], _ :: _ => .lt
  | _ :: _, [] => .gt
  | x :: xs, y :: ys => (order x y).then (orderItems xs ys)

/-- The values of fields compared one after another. -/
def orderValues : List (String × Json) → List (String × Json) → Ordering
  | (_, x) :: fs, (_, y) :: gs => (order x y).then (orderValues fs gs)
  | _, _ => .eq

end

/-! ## Containment -/

/-- Whether a list stands somewhere in another, without a gap. -/
def isInfix {α : Type} [BEq α] (part : List α) : List α → Bool
  | [] => part.isEmpty
  | c :: rest => part.isPrefixOf (c :: rest) || isInfix part rest

mutual

/-- Whether the second value is contained in the first: a part of a string, an array of
which each item is contained in an item of the same kind, an object of which each field
is contained in the field of its key. Other values contain what is the same. -/
def contains : Json → Json → Bool
  | .string s, .string t => isInfix t.toList s.toList
  | .array xs, .array ys => containsItems xs ys
  | .object fs, .object gs => containsFields fs gs
  | v, w => v.same w

/-- Whether each of the second items is contained in one of the first. -/
def containsItems (xs : List Json) : List Json → Bool
  | [] => true
  | y :: ys => xs.any (fun x => x.kind == y.kind && contains x y) && containsItems xs ys

/-- Whether each of the second fields is contained in one of the first. -/
def containsFields (fs : List (String × Json)) : List (String × Json) → Bool
  | [] => true
  | (k, y) :: gs =>
    (match field? k fs with
      | some x => x.kind == y.kind && contains x y
      | none => false) && containsFields fs gs

end

end Json

end Distill
