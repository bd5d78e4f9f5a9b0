import Distill.Keyed
import Distill.Number.Decimal

/-!
# JSON values

Numbers are integers or doubles, and the two kinds are told apart: `1` and `1.0`
differ as values although the filter language compares them as equal.

An object is the list of its fields. Values that the rest of the library builds keep
the fields in strictly ascending order of their keys (`Json.Sorted`); a value as it
stands in a text may hold them in any order and with repetitions, and `Json.sort`
brings it into order, the last of equal keys winning.

## Main definitions

* `Number`, `Json` — the values.
* `Json.sort`, `Json.Sorted` — the form with ordered fields.
* `Json.same` — equality with doubles compared as numbers.
-/

namespace Distill

/-- A JSON number. -/
inductive Number where
  | int (i : Int)
  | real (x : Double)
  deriving DecidableEq, Repr, Inhabited

namespace Number

/-- The double nearest to the number. -/
def toDouble : Number → Double
  | int i => Double.ofInt i
  | real x => x

/-- Equality of values of one kind; an integer is never the same as a double. -/
def same : Number → Number → Bool
  | int i, int j => i == j
  | real x, real y => x.key == y.key
  | _, _ => false

end Number

/-- A JSON value. -/
inductive Json where
  | null
  | bool (b : Bool)
  | number (n : Number)
  | string (s : String)
  | array (items : List Json)
  | object (fields : List (String × Json))
  deriving Repr, Inhabited

namespace Json

/-- An integer. -/
def ofInt (i : Int) : Json := number (.int i)

/-- A natural. -/
def ofNat (n : Nat) : Json := number (.int n)

/-! ## Fields -/

/-- The value of a key. -/
def field? (key : String) (fields : List (String × Json)) : Option Json := fields.lookup key

mutual

/-- Order the fields at every depth. -/
def sort : Json → Json
  | array items => array (sortItems items)
  | object fields => object (sortKeys (sortValues fields))
  | v => v

/-- Order the fields inside every item. -/
def sortItems : List Json → List Json
  | [] => []
  | v :: rest => sort v :: sortItems rest

/-- Order the fields inside the value of every field. -/
def sortValues : List (String × Json) → List (String × Json)
  | [] => []
  | (k, v) :: rest => (k, sort v) :: sortValues rest

end

mutual

/-- At every depth the keys are strictly ascending. -/
def Sorted : Json → Prop
  | array items => SortedItems items
  | object fields => Ascending fields ∧ SortedValues fields
  | _ => True

/-- Every item is sorted. -/
def SortedItems : List Json → Prop
  | [] => True
  | v :: rest => Sorted v ∧ SortedItems rest

/-- The value of every field is sorted. -/
def SortedValues : List (String × Json) → Prop
  | [] => True
  | (_, v) :: rest => Sorted v ∧ SortedValues rest

end

/-! ## Equality -/

mutual

/-- Equality of values, with doubles compared as numbers, so that both zeros are the
same. -/
def same : Json → Json → Bool
  | null, null => true
  | bool a, bool b => a == b
  | number m, number n => m.same n
  | string s, string t => s == t
  | array xs, array ys => sameItems xs ys
  | object fs, object gs => sameFields fs gs
  | _, _ => false

/-- The same items in the same order. -/
def sameItems : List Json → List Json → Bool
  | [], [] => true
  | x :: xs, y :: ys => same x y && sameItems xs ys
  | _, _ => false

/-- The same fields in the same order. -/
def sameFields : List (String × Json) → List (String × Json) → Bool
  | [], [] => true
  | (k, x) :: fs, (l, y) :: gs => k == l && same x y && sameFields fs gs
  | _, _ => false

end

/-! ## Nesting -/

mutual

/-- How deep arrays and objects are nested; a scalar has depth zero. -/
def depth : Json → Nat
  | array items => depthItems items + 1
  | object fields => depthValues fields + 1
  | _ => 0

/-- The greatest depth of an item. -/
def depthItems : List Json → Nat
  | [] => 0
  | v :: rest => max (depth v) (depthItems rest)

/-- The greatest depth of the value of a field. -/
def depthValues : List (String × Json) → Nat
  | [] => 0
  | (_, v) :: rest => max (depth v) (depthValues rest)

end

end Json

end Distill
