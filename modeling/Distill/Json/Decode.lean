import Distill.Json.Reader

/-!
# Decoding records from JSON

A record is decoded from an object, in which each field may stand once and fields that
are not known are skipped, or from an array that holds the fields in the order of
declaration. The values decoded here are as they stand in the text, so that a repeated
field can be seen.

## Main definitions

* `Json.record?` — the fields of a record, each of them or nothing.
* `Json.word?` — a word of an enumeration.
-/

namespace Distill.Json

/-- The field of a name if it stands at most once. -/
def uniqueField? (name : String) (fields : List (String × Json)) : Option (Option Json) :=
  match fields.filter (·.1 == name) with
  | [] => some none
  | [f] => some (some f.2)
  | _ => none

/-- The fields of a record with the given names. -/
def record? (names : List String) : Json → Option (List (Option Json))
  | object fields => names.mapM fun name => uniqueField? name fields
  | array items =>
    if items.length ≤ names.length then
      some (items.map some ++ List.replicate (names.length - items.length) none)
    else none
  | _ => none

/-- A string. -/
def string? : Json → Option String
  | string s => some s
  | _ => none

/-- A boolean. -/
def bool? : Json → Option Bool
  | bool b => some b
  | _ => none

/-- An unsigned 64-bit integer. -/
def nat64? : Json → Option Nat
  | number (.int i) => if 0 ≤ i ∧ i < Nat.pow 2 64 then some i.toNat else none
  | _ => none

/-- Any number, as a double. -/
def double? : Json → Option Double
  | number n => some n.toDouble
  | _ => none

/-- The items of an array, decoded. -/
def list? {α : Type} (item : Json → Option α) : Json → Option (List α)
  | array items => items.mapM item
  | _ => none

/-- A value that may be absent or null. -/
def optional? {α : Type} (value : Json → Option α) : Option Json → Option (Option α)
  | none | some null => some none
  | some v => (value v).map some

/-- A value with a default for its absence. -/
def orElse? {α : Type} (value : Json → Option α) (otherwise : α) : Option Json → Option α
  | none => some otherwise
  | some v => value v

/-- A word of an enumeration: a string, or the only key of an object with a null value. -/
def word? {α : Type} (ofName : String → Option α) : Json → Option α
  | string s => ofName s
  | object [(s, null)] => ofName s
  | _ => none

end Distill.Json
