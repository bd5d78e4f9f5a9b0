import Distill.Yaml.Atom

/-!
# YAML values

## Main definitions

* `Yaml.Value` — the values that definitions are read from. The entries of a mapping
  stand in the order of the text.
* `Yaml.Value.same` — equality; the order of the entries of a mapping does not matter.
* `Yaml.Value.debugText` — the form in which messages show a value.
-/

namespace Distill.Yaml

/-- A YAML value. -/
inductive Value where
  | null
  | bool (b : Bool)
  | int (i : Int)
  | real (x : Binary64)
  | string (s : String)
  | sequence (items : List Value)
  | mapping (entries : List (Value × Value))
  /-- A value under a tag of its own. -/
  | tagged (tag : String) (content : Value)
  deriving Repr, Inhabited

namespace Value

/-! ## Equality -/

/-- Equality of floating point numbers, where not-a-number is the same as itself. -/
def sameReal : Binary64 → Binary64 → Bool
  | .finite x, .finite y => x.key == y.key
  | .infinite a, .infinite b => a == b
  | .nan, .nan => true
  | _, _ => false

mutual

/-- Equality of values. -/
def same : Value → Value → Bool
  | null, null => true
  | bool a, bool b => a == b
  | int i, int j => i == j
  | real x, real y => sameReal x y
  | string s, string t => s == t
  | sequence xs, sequence ys => sameItems xs ys
  | mapping es, mapping fs => es.length == fs.length && sameEntries es fs
  | tagged s x, tagged t y => s == t && same x y
  | _, _ => false

/-- The same items in the same order. -/
def sameItems : List Value → List Value → Bool
  | [], [] => true
  | x :: xs, y :: ys => same x y && sameItems xs ys
  | _, _ => false

/-- Every entry of the first list is one of the second. -/
def sameEntries : List (Value × Value) → List (Value × Value) → Bool
  | [], _ => true
  | (k, v) :: es, fs => (fs.any fun f => same k f.1 && same v f.2) && sameEntries es fs

end

/-- Whether some entry has a key. -/
def hasKey (key : Value) (entries : List (Value × Value)) : Bool :=
  entries.any fun e => same key e.1

/-! ## Texts for messages -/

/-- A floating point number. -/
def realText : Binary64 → String
  | .finite x => x.shortText ""
  | .infinite neg => if neg then "-.inf" else ".inf"
  | .nan => ".nan"

mutual

/-- The form in which messages show a value. -/
def debugText : Value → String
  | null => "Null"
  | bool b => "Bool(" ++ toString b ++ ")"
  | int i => "Number(" ++ toString i ++ ")"
  | real x => "Number(" ++ realText x ++ ")"
  | string s => "String(" ++ doubleQuoted s ++ ")"
  | sequence items => "Sequence [" ++ ", ".intercalate (debugItems items) ++ "]"
  | mapping entries => "Mapping \x7b" ++ ", ".intercalate (debugEntries entries) ++ "\x7d"
  | tagged tag content =>
    "TaggedValue \x7b tag: !" ++ tag ++ ", value: " ++ debugText content ++ " \x7d"

/-- The items of a sequence. -/
def debugItems : List Value → List String
  | [] => []
  | v :: rest => debugText v :: debugItems rest

/-- The entries of a mapping; scalar keys are shown without their kind. -/
def debugEntries : List (Value × Value) → List String
  | [] => []
  | (k, v) :: rest =>
    let key := match k with
      | bool b => toString b
      | int i => toString i
      | real x => realText x
      | string s => doubleQuoted s
      | k => debugText k
    (key ++ ": " ++ debugText v) :: debugEntries rest

end

/-- How a message names a key that stands twice. -/
def keyText : Value → String
  | null => "with null key"
  | bool b => "with key \x60" ++ toString b ++ "\x60"
  | int i => "with key " ++ toString i
  | real x => "with key " ++ realText x
  | string s => "with key " ++ doubleQuoted s
  | sequence _ | mapping _ | tagged .. => "in YAML map"

end Value

end Distill.Yaml
