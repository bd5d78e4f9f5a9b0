import Distill.Yaml.Decode

/-!
# Records

A record is a mapping whose keys are texts. Three fields are strings; the others are
kept as they are until the type of the record is known.

## Main definitions

* `Definition.Record` — a record.
* `Definition.Record.ofValue` — the record of a value.
* `Definition.Record.ofText` — the record of a text that is one document.
* `Definition.textField`, `Definition.naturalField`, … — the values of fields.
-/

namespace Distill.Definition

open Yaml

/-- A record of a definition. -/
structure Record where
  name : Option String := none
  type : Option String := none
  source : Option String := none
  /-- The other fields, in ascending order of their names. -/
  fields : List (String × Value) := []
  deriving Repr, Inhabited

/-! ## Values -/

/-- A value without the tags around it. -/
def untagged : Value → Value
  | .tagged _ v => untagged v
  | v => v

/-- How messages describe a value. -/
def finding (v : Value) : Finding :=
  match untagged v with
  | .null => .atom .null
  | .bool b => .atom (.bool b)
  | .int i => .atom (.int i)
  | .real x => .atom (.real x)
  | .string s => .atom (.text s)
  | .sequence _ => .sequence
  | .mapping _ => .map
  | .tagged .. => .enum

/-- The complaint that something else was expected. -/
def mismatch (v : Value) (expected : String) : Complaint := .invalidType (finding v) expected

/-- A string, whatever tag it has. -/
def asText (expected : String) (v : Value) : Except Complaint String :=
  match untagged v with
  | .string s => .ok s
  | _ => .error (mismatch v expected)

/-- A string or nothing for null. -/
def asOptionalText : Value → Except Complaint (Option String)
  | .null => .ok none
  | v => (asText "a string" v).map some

/-- A natural of 64 bits. -/
def asNatural (v : Value) : Except Complaint Nat :=
  match untagged v with
  | .int i =>
    if 0 ≤ i then .ok i.toNat else .error (.invalidValue (.atom (.int i)) "u64")
  | _ => .error (mismatch v "u64")

/-- A string or a list of strings. -/
def asTexts (v : Value) : Except Complaint (List String) :=
  let refused : Except Complaint (List String) := .error (.noVariant "StringOrList")
  match v with
  | .string s => .ok [s]
  | .sequence items =>
    (items.mapM fun item : Value => match item with
      | .string s => some s
      | _ => none).elim refused .ok
  | _ => refused

mutual

/-- Refuse a value that has a tag somewhere. -/
def plainContent : Value → Except Complaint Unit
  | .tagged .. => .error .taggedContent
  | .sequence items => plainItems items
  | .mapping entries => plainEntries entries
  | _ => .ok ()

/-- Refuse items of which one has a tag. -/
def plainItems : List Value → Except Complaint Unit
  | [] => .ok ()
  | v :: rest => do
    plainContent v
    plainItems rest

/-- Refuse entries of which one has a tag. -/
def plainEntries : List (Value × Value) → Except Complaint Unit
  | [] => .ok ()
  | (k, v) :: rest => do
    plainContent k
    plainContent v
    plainEntries rest

end

/-! ## Records of values -/

namespace Record

/-- What is expected of a record. -/
def expected : String := "struct RawNode"

/-- What is expected of the key of a field. -/
def expectedKey : String := "field identifier"

/-- The value of a string field of which nothing has been read before. -/
def once (name : String) (seen : Option (Option String)) (v : Except Complaint (Option String)) :
    Except Complaint (Option (Option String)) :=
  match seen with
  | some _ => .error (.duplicateField name)
  | none => v.map some

/-- The fields read so far; a string field that is there may have no value. -/
structure Partial where
  name : Option (Option String) := none
  type : Option (Option String) := none
  source : Option (Option String) := none
  others : List (String × Value) := []

/-- The record of the fields. -/
def Partial.record (p : Partial) : Record :=
  { name := p.name.join, type := p.type.join, source := p.source.join
    fields := sortKeys p.others }

/-- Add a field. -/
def addField (p : Partial) (key : String) (v : Value) : Except Complaint Partial := do
  if key = "name" then return { p with name := ← once key p.name (asOptionalText v) }
  else if key = "type" then return { p with type := ← once key p.type (asOptionalText v) }
  else if key = "source" then return { p with source := ← once key p.source (asOptionalText v) }
  else
    plainContent v
    return { p with others := p.others ++ [(key, v)] }

/-- The record of entries. -/
def ofEntries (entries : List (Value × Value)) : Except Complaint Record := do
  let p ← entries.foldlM (fun p (k, v) => do addField p (← asText expectedKey k) v) {}
  return p.record

/-- The record of a value; null is a record without fields. -/
def ofValue (v : Value) : Except Complaint Record :=
  match untagged v with
  | .mapping entries => ofEntries entries
  | .null => ofEntries []
  | _ => .error (mismatch v expected)

/-- The records of a value that is a list of them. -/
def listOfValue (v : Value) : Except Complaint (List Record) :=
  match untagged v with
  | .sequence items => items.mapM ofValue
  | .null => .ok []
  | _ => .error (mismatch v "a sequence")

/-! ## Records of texts -/

/-- Content of any kind without tags of its own. -/
def contentForm : Form Value Value where
  atom
    | .null => .ok .null
    | .bool b => .ok (.bool b)
    | .int i => .ok (.int i)
    | .wideInt i => .error (.invalidType (.atom (.wideInt i)) "any value")
    | .real x => .ok (.real x)
    | .text s => .ok (.string s)
  sequence := .sequence
  mapping := .mapping
  tagged _ := .error .taggedContent
  key _ _ value := value
  clash _ _ := none

mutual

/-- Refuse a value in which some mapping has a key twice. -/
def uniqueKeys : Value → Except Complaint Unit
  | .sequence items => uniqueKeysOfItems items
  | .mapping entries => uniqueKeysOfEntries [] entries
  | _ => .ok ()

/-- Refuse items in which some mapping has a key twice. -/
def uniqueKeysOfItems : List Value → Except Complaint Unit
  | [] => .ok ()
  | v :: rest => do
    uniqueKeys v
    uniqueKeysOfItems rest

/-- Refuse entries of which one has a key of those before it. -/
def uniqueKeysOfEntries (before : List (Value × Value)) :
    List (Value × Value) → Except Complaint Unit
  | [] => .ok ()
  | (k, v) :: rest => do
    uniqueKeys k
    if Value.hasKey k before then throw (.duplicateKey k.keyText)
    uniqueKeys v
    uniqueKeysOfEntries ((k, v) :: before) rest

end

/-- A string or nothing for a plain null. -/
def decodeOptionalText (scope : Scope) (path : Path) (n : Yaml.Node) :
    Decoding (Option String) := do
  let n ← follow scope n
  match n with
  | .scalar info text .plain =>
    if (info.tag.bind coreTag?) = some "null" then
      if isNull text then return none
      else refuse (.invalidValue (.atom (.text text)) "null")
    else if info.tag.isNone && (text.isEmpty || isNull text) then return none
    else return some text
  | n => return some (← decodeText scope "a string" path n)

/-- The fields of a mapping behind those that have been read. -/
def decodeFields (scope : Scope) (closed : Bool) :
    Partial → List (Yaml.Node × Yaml.Node) → Decoding Partial
  | p, [] => if closed then pure p else throw scope.stop
  | p, (k, v) :: rest => do
    let key ← decodeText scope expectedKey .root k
    let path := valuePath .root k
    let field (seen : Option (Option String)) : Decoding (Option (Option String)) := do
      if seen.isSome then refuse (.duplicateField key)
      return some (← decodeOptionalText scope path v)
    let p ← if key = "name" then do pure { p with name := ← field p.name }
      else if key = "type" then do pure { p with type := ← field p.type }
      else if key = "source" then do pure { p with source := ← field p.source }
      else do
        let value ← decodeWithin contentForm scope (maxLevels - 1) path v
        pure { p with others := p.others ++ [(key, value)] }
    decodeFields scope closed p rest

/-- The record of a node. -/
def decode (scope : Scope) (n : Yaml.Node) : Decoding Record := do
  match ← follow scope n with
  | .missing => throw scope.stop
  | .reference _ => throw .endOfStream
  | .void _ => return {}
  | .mapping info entries closed =>
    located info.mark .root do
      let p ← decodeFields scope closed {} entries
      for (_, v) in p.others do accept (uniqueKeys v)
      return p.record
  | .scalar info text style =>
    if text.isEmpty && style = .plain then return {}
    else located info.mark .root (refuseNode (.scalar info text style) expected)
  | .sequence info items closed =>
    located info.mark .root (refuseNode (.sequence info items closed) expected)

/-- The record of a text that is one document. -/
def ofText (s : String) : Except Yaml.Error Record := do
  match documents s with
  | [] => throw .endOfStream
  | d :: others =>
    let (r, _) ← (decode (Scope.ofDocument d) d.root).run 0
    if let some stop := d.stop then throw stop.error
    if others.isEmpty then return r else throw .multipleDocuments

end Record

end Distill.Definition
