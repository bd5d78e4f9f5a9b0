import Distill.Json.Value
import Distill.Yaml.Node
import Distill.Yaml.Value

/-!
# Decoding documents

The nodes of a document are decoded in the order in which they stand, an alias as the
node of its anchor. What is wrong with the content of a truncated text is told before
what is wrong with the text.

## Main definitions

* `Yaml.Error` — why a text cannot be decoded; `Error.message`, `Error.location`.
* `Yaml.Form` — what nodes are decoded to.
* `Yaml.decodeValue`, `Yaml.decodeJson` — the forms of definitions and of documents.
* `Yaml.readAll` — all documents of a text.
-/

namespace Distill.Yaml

/-! ## Errors -/

/-- The way from the root to a node. -/
inductive Path where
  | root
  | item (parent : Path) (index : Nat)
  | entry (parent : Path) (key : String)
  /-- Below a key that is not a scalar. -/
  | unknown (parent : Path)
  deriving DecidableEq, Repr

namespace Path

/-- The way as messages show it. -/
def text : Path → String
  | root => "."
  | item parent index => parent.text ++ "[" ++ toString index ++ "]"
  | entry root key => key
  | entry parent key => parent.text ++ "." ++ key
  | unknown root => "?"
  | unknown parent => parent.text ++ ".?"

end Path

/-- Why a text cannot be decoded. -/
inductive Error where
  /-- The text itself cannot be read. -/
  | fault (f : Fault)
  | unknownAnchor (mark : Mark)
  /-- Collections are nested too deeply. -/
  | recursionLimit (mark : Mark)
  /-- Aliases are followed too often. -/
  | repetitionLimit
  | endOfStream
  | multipleDocuments
  /-- A value is refused, at a place when that is known. -/
  | refused (c : Complaint) (place : Option (Mark × Path))
  deriving DecidableEq, Repr

/-- The error with which a document ends. -/
def Stop.error : Stop → Error
  | .fault f => .fault f
  | .unknownAnchor mark => .unknownAnchor mark

namespace Error

/-- The place of an error, when there is one. -/
def mark? : Error → Option Mark
  | fault f => some f.mark
  | unknownAnchor mark | recursionLimit mark => some mark
  | refused _ place => place.map (·.1)
  | repetitionLimit | endOfStream | multipleDocuments => none

/-- The line and the column of an error, both counted from one. -/
def location (e : Error) : Option (Nat × Nat) := e.mark?.map fun m => (m.line + 1, m.column + 1)

/-- The wording without a place. -/
def reason : Error → String
  | fault f => f.message
  | unknownAnchor _ => "unknown anchor"
  | recursionLimit _ => "recursion limit exceeded"
  | repetitionLimit => "repetition limit exceeded"
  | endOfStream => "EOF while parsing a value"
  | multipleDocuments =>
    "deserializing from YAML containing more than one document is not supported"
  | refused c none => c.message
  | refused c (some (_, path)) =>
    if path.text = "." then c.message else path.text ++ ": " ++ c.message

/-- The wording, with the place unless that is the start of the text. -/
def message (e : Error) : String :=
  match e, e.mark? with
  | fault f, _ => f.message
  | e, some m => if m.isStart then e.reason else e.reason ++ " at " ++ m.display
  | e, none => e.reason

end Error

/-! ## Documents with anchors -/

mutual

/-- How many parts a node consists of: one for a scalar or an alias, two for the ends of
a collection. -/
def Node.parts : Node → Nat
  | .missing => 0
  | .void _ | .reference _ | .scalar .. => 1
  | .sequence _ items closed => 1 + partsOfItems items + closed.toNat
  | .mapping _ entries closed => 1 + partsOfEntries entries + closed.toNat

/-- How many parts the items have. -/
def partsOfItems : List Node → Nat
  | [] => 0
  | n :: rest => n.parts + partsOfItems rest

/-- How many parts the keys and values have. -/
def partsOfEntries : List (Node × Node) → Nat
  | [] => 0
  | (k, v) :: rest => k.parts + v.parts + partsOfEntries rest

end

/-- The number of the anchor of a node. -/
def Node.anchor? : Node → Option Nat
  | .scalar info .. | .sequence info .. | .mapping info .. => info.anchor
  | .missing | .void _ | .reference _ => none

/-- The anchor of a node with the node. -/
def Node.anchored (n : Node) : List (Nat × Node) := (n.anchor?.map fun id => (id, n)).toList

mutual

/-- The anchors in a node with their nodes, the last first. -/
def Node.anchors : Node → List (Nat × Node)
  | .sequence info items closed =>
    anchorsOfItems items ++ Node.anchored (.sequence info items closed)
  | .mapping info entries closed =>
    anchorsOfEntries entries ++ Node.anchored (.mapping info entries closed)
  | n => n.anchored

/-- The anchors in items. -/
def anchorsOfItems : List Node → List (Nat × Node)
  | [] => []
  | n :: rest => anchorsOfItems rest ++ n.anchors

/-- The anchors in keys and values. -/
def anchorsOfEntries : List (Node × Node) → List (Nat × Node)
  | [] => []
  | (k, v) :: rest => anchorsOfEntries rest ++ v.anchors ++ k.anchors

end

/-- What is known of a document while it is decoded. -/
structure Scope where
  anchors : List (Nat × Node)
  /-- How often an alias may be followed. -/
  limit : Nat
  /-- The error that stands where nodes are missing. -/
  stop : Error

/-- What is known of a document. -/
def Scope.ofDocument (d : Document) : Scope where
  anchors := d.root.anchors
  limit := 100 * d.root.parts
  stop := (d.stop.map Stop.error).getD .endOfStream

/-! ## Decoding -/

/-- Decoding counts how often aliases have been followed. -/
abbrev Decoding := StateT Nat (Except Error)

/-- Refuse a value without telling where. -/
def refuse {α : Type} (c : Complaint) : Decoding α := throw (.refused c none)

/-- The complaint of a pure part. -/
def accept {α : Type} : Except Complaint α → Decoding α
  | .ok a => pure a
  | .error c => refuse c

/-- Put the place of a node to a refusal that has none yet. -/
def located {α : Type} (mark : Mark) (path : Path) (x : Decoding α) : Decoding α := fun n =>
  match x n with
  | .error (.refused c none) => .error (.refused c (some (mark, path)))
  | r => r

/-- The node that an alias stands for, any other node itself. -/
def follow (scope : Scope) : Node → Decoding Node
  | .reference id => do
    let n ← get
    set (n + 1)
    if scope.limit < n + 1 then throw .repetitionLimit
    pure ((scope.anchors.lookup id).getD .missing)
  | n => pure n

/-- How a message describes a node where something else was expected. -/
def Node.finding (n : Node) : Except Complaint Finding :=
  match n with
  | .scalar info text style => (Atom.ofScalar info.tag style text).map .atom
  | .sequence .. => .ok .sequence
  | .mapping .. => .ok .map
  | .missing | .void _ | .reference _ => .ok (.atom .null)

/-- Refuse a node. -/
def refuseNode {α : Type} (n : Node) (expected : String) : Decoding α := do
  let found ← accept n.finding
  refuse (.invalidType found expected)

/-- The text of a scalar, whatever it denotes. -/
def decodeText (scope : Scope) (expected : String) (path : Path) (n : Node) :
    Decoding String := do
  match ← follow scope n with
  | .scalar _ text _ => pure text
  | .missing => throw scope.stop
  | .void _ | .reference _ => throw .endOfStream
  | .sequence info items closed =>
    located info.mark path (refuseNode (.sequence info items closed) expected)
  | .mapping info entries closed =>
    located info.mark path (refuseNode (.mapping info entries closed) expected)

/-- What nodes are decoded to, and with what keys. -/
structure Form (κ α : Type) where
  atom : Atom → Except Complaint α
  sequence : List α → α
  mapping : List (κ × α) → α
  /-- What a tag of its own makes of a value. -/
  tagged : String → Except Complaint (α → α)
  /-- The key of an entry, from its text or its value; the flag tells the first entry. -/
  key : Bool → (String → Decoding String) → Decoding α → Decoding κ
  /-- Why a key may not follow the entries read so far. -/
  clash : List (κ × α) → κ → Option Complaint

section

variable {κ α : Type} (form : Form κ α) (scope : Scope)

/-- The items of a sequence from an index on; missing ones are an error. -/
def decodeItems (sub : Path → Node → Decoding α) (path : Path) (closed : Bool) :
    Nat → List Node → Decoding (List α)
  | _, [] => if closed then pure [] else throw scope.stop
  | i, n :: rest => do
    let v ← sub (.item path i) n
    let vs ← decodeItems sub path closed (i + 1) rest
    return v :: vs

/-- Where the value of a key stands. -/
def valuePath (path : Path) : Node → Path
  | .scalar _ text _ => .entry path text
  | _ => .unknown path

/-- The entries of a mapping after those that have been read. -/
def decodeEntries (sub : Path → Node → Decoding α) (path : Path) (closed : Bool) :
    List (κ × α) → List (Node × Node) → Decoding (List (κ × α))
  | done, [] => if closed then pure done else throw scope.stop
  | done, (k, v) :: rest => do
    let key ← form.key done.isEmpty (decodeText scope · path k) (sub path k)
    if let some c := form.clash done key then refuse c
    let value ← sub (valuePath path k) v
    decodeEntries sub path closed (done ++ [(key, value)]) rest

/-- Put a value under the tag of its node, if that has one of its own. -/
def withTag (info : NodeInfo) (content : Decoding α) : Decoding α :=
  match localTag? info.tag with
  | none => content
  | some tag => do
    let wrap ← accept (form.tagged tag)
    return wrap (← content)

/-- A node, whose parts are decoded by `sub`; without it collections are refused. -/
def decodeNode (sub : Option (Path → Node → Decoding α)) (path : Path) (n : Node) :
    Decoding α := do
  match ← follow scope n with
  | .missing => throw scope.stop
  | .reference _ => throw .endOfStream
  | .void mark => located mark path (accept (form.atom .null))
  | .scalar info text style =>
    let tag := if (localTag? info.tag).isSome then none else info.tag
    located info.mark path <| withTag form info <| accept do
      form.atom (← Atom.ofScalar tag style text)
  | .sequence info items closed =>
    located info.mark path <| withTag form info <|
      match sub with
      | none => throw (.recursionLimit info.mark)
      | some sub => form.sequence <$> decodeItems scope sub path closed 0 items
  | .mapping info entries closed =>
    located info.mark path <| withTag form info <|
      match sub with
      | none => throw (.recursionLimit info.mark)
      | some sub => form.mapping <$> decodeEntries form scope sub path closed [] entries

/-- A node with at most so many levels of collections. -/
def decodeWithin : Nat → Path → Node → Decoding α
  | 0 => decodeNode form scope none
  | levels + 1 => decodeNode form scope (some (decodeWithin levels))

end

/-- How deep collections may be nested. -/
def maxLevels : Nat := 128

/-! ## Forms -/

/-- The values of definitions: a key may be any value but none may stand twice. Tags
are told apart without a second exclamation mark. -/
def valueForm : Form Value Value where
  atom
    | .null => .ok .null
    | .bool b => .ok (.bool b)
    | .int i => .ok (.int i)
    | .wideInt i => .error (.invalidType (.atom (.wideInt i)) "any YAML value")
    | .real x => .ok (.real x)
    | .text s => .ok (.string s)
  sequence := .sequence
  mapping := .mapping
  tagged tag := .ok (.tagged (withoutMark tag))
  key _ _ value := value
  clash done key := if Value.hasKey key done then some (.duplicateKey key.keyText) else none

/-- JSON documents: keys are the texts of scalars, the last of equal keys wins, and
numbers that JSON does not have are null. -/
def jsonForm : Form String Json where
  atom
    | .null => .ok .null
    | .bool b => .ok (.bool b)
    | .int i => .ok (.ofInt i)
    | .wideInt _ => .error .numberOutOfRange
    | .real (.finite x) => .ok (.number (.real x))
    | .real _ => .ok .null
    | .text s => .ok (.string s)
  sequence := .array
  mapping entries := .object (sortKeys entries)
  tagged _ := .error (.invalidType .enum "any valid JSON value")
  key first text _ := text (if first then "a string key" else "a string")
  clash _ _ := none

/-! ## Texts -/

/-- The content of a document; what it lacks at its end is an error after all else. -/
def Document.decode {κ α : Type} (form : Form κ α) (d : Document) : Except Error α := do
  let (v, _) ← (decodeWithin form (Scope.ofDocument d) maxLevels .root d.root).run 0
  match d.stop with
  | some stop => throw stop.error
  | none => return v

/-- The content of all documents of a text. -/
def readAll {κ α : Type} (form : Form κ α) (s : String) : Except Error (List α) :=
  (documents s).mapM (Document.decode form)

/-- All documents of a text as JSON. -/
def readJson (s : String) : Except Error (List Json) := readAll jsonForm s

end Distill.Yaml
