import Distill.Definition.Validation

/-!
# Loading definitions

Definitions are the records of YAML documents, which may stand in nested lists. They
are read from a text, from a file, or from all files of a directory in the order of
their paths.

## Main definitions

* `Definition.records` — the records of a text.
* `Definition.NodeSet.ofRecords` — the nodes of records.
* `Definition.NodeSet.ofText`, `ofFile`, `ofDirectory`, `ofPath` — the nodes of a text, a
  file, a directory, or whatever a path leads to.
-/

namespace Distill.Definition

open Yaml (Value)

/-! ## Texts -/

mutual

/-- The records of a document: those of all items of a list, at any depth. -/
def recordsOfValue : Value → Except Error (List Record)
  | .sequence items => recordsOfItems items
  | .mapping entries =>
    match Record.ofValue (.mapping entries) with
    | .ok r => .ok [r]
    | .error c => .error (.of (.malformedRecord c))
  | .null => .ok []
  | v => .error (.of (.unknownFormat v))

/-- The records of the items of a list. -/
def recordsOfItems : List Value → Except Error (List Record)
  | [] => .ok []
  | v :: rest => do
    let rs ← recordsOfValue v
    let others ← recordsOfItems rest
    return rs ++ others

end

/-- The records of a text, document by document. -/
def records (source : String) : Except Error (List Record) := do
  let lists ← (Yaml.documents source).mapM fun d =>
    match d.decode Yaml.valueForm with
    | .ok v => recordsOfValue v
    | .error e => .error (.ofYaml source e)
  return lists.flatten

/-! ## Nodes -/

/-- A record with the path of the file it stands in. -/
structure SourcedRecord where
  record : Record
  file : Option String := none
  deriving Repr, Inhabited

namespace NodeSet

/-- Add the node of a record. -/
def addRecord (s : NodeSet) (r : SourcedRecord) : Except Error NodeSet := do
  let n ← (nodeOf r.record).mapError (·.orFile r.file)
  match s.insert? n with
  | some s => return s
  | none => throw (((Error.of (.duplicateName n.name)).withNode n.name).orFile r.file)

/-- The nodes of records in their order. -/
def ofRecords (rs : List SourcedRecord) : Except Error NodeSet := rs.foldlM addRecord empty

/-- The nodes of a text. -/
def ofText (source : String) : Except Error NodeSet := do
  ofRecords ((← records source).map fun r => { record := r })

end NodeSet

/-! ## Files -/

/-- The path of a file in a tree that stands at a location. -/
def locate (location : String) (path : List String) : String :=
  "/".intercalate (location :: path)

/-- The records of a file, of which messages show a path. -/
def recordsOfFile (t : FileTree) (path : List String) (shown : String) :
    Except Error (List SourcedRecord) :=
  match t.readText path with
  | .error e => .error ((Error.of (.unreadable e)).withFile shown)
  | .ok source => do
    let rs ← (records source).mapError (·.withFile shown)
    return rs.map fun r => { record := r, file := some shown }

/-- What follows the last point of a name; a point at its start is part of the name. -/
def extension? (name : String) : Option String :=
  let cs := name.toList
  let last := (cs.reverse.takeWhile (· != '.')).reverse
  if name = ".." || cs.length ≤ last.length + 1 then none else some (String.ofList last)

/-- Whether a name is that of a file with definitions. -/
def isDefinitionFile (name : String) : Bool :=
  match (extension? name).map fun e => e.map Char.toLower with
  | some e => e == "yaml" || e == "yml" || e == "json"
  | none => false

/-- The paths of the files with definitions below a directory, found by way of links too
as long as they lead to places below a root. -/
def filesBelow (t : FileTree) (root : List String) : Nat → List String → List (List String)
  | 0, _ => []
  | fuel + 1, here =>
    match t.names here with
    | .error _ => []
    | .ok names =>
      names.flatMap fun name =>
        match t.resolve (here ++ [name]) with
        | .error _ => []
        | .ok there =>
          if !root.isPrefixOf there then []
          else if t.isDirectory there then filesBelow t root fuel (here ++ [name])
          else if isDefinitionFile name then [here ++ [name]]
          else []

mutual

/-- How deep directories are nested below an entry. -/
def entryHeight : Entry → Nat
  | .directory es => treeHeight es + 1
  | _ => 0

/-- How deep directories are nested below some entries. -/
def treeHeight : List (String × Entry) → Nat
  | [] => 0
  | (_, e) :: rest => max (entryHeight e) (treeHeight rest)

end

/-- The order of paths, component by component. -/
def pathLe : List String → List String → Bool
  | [], _ => true
  | _ :: _, [] => false
  | a :: as, b :: bs => a < b || (a == b && pathLe as bs)

/-- The paths of the files with definitions below a directory, in ascending order. A way
without more than forty links has between two links at most as many components as
directories are nested. -/
def definitionFiles (t : FileTree) (root : List String) : List (List String) :=
  (filesBelow t root ((FileTree.maxLinks + 1) * (treeHeight t + 2)) root).mergeSort pathLe

namespace NodeSet

/-- The nodes of the file that a path leads to. -/
def ofFile (location : String) (t : FileTree) (path : String) : Except Error NodeSet := do
  let shown := if path.isEmpty then location else location ++ "/" ++ path
  ofRecords (← recordsOfFile t (pathComponents path) shown)

/-- The nodes of all files with definitions below the directory that a path leads to. -/
def ofDirectory (location : String) (t : FileTree) (path : String) : Except Error NodeSet := do
  let shown := if path.isEmpty then location else location ++ "/" ++ path
  let unreadable (e : FileError) (file : String) := (Error.of (.unreadable e)).withFile file
  let root ← (t.resolve (pathComponents path)).mapError (unreadable · shown)
  if !t.isDirectory root then throw (unreadable .notDirectory (locate location root))
  let rs ← (definitionFiles t root).mapM fun file => recordsOfFile t file (locate location file)
  ofRecords rs.flatten

/-- The nodes of whatever a path leads to. -/
def ofPath (location : String) (t : FileTree) (path : String) : Except Error NodeSet :=
  if t.isDirectory (pathComponents path) then ofDirectory location t path
  else ofFile location t path

end NodeSet

end Distill.Definition
