import Distill.Cache.ArtifactFile
import Distill.Cache.Name
import Distill.Files.Writing
import Distill.Text.Basic

/-!
# Caches

A cache keeps the artifacts of archives and the conclusions of their last full runs, as
files in a tree.

## Main definitions

* `Cache` — a place for a tree of files, which the first write makes.
* `Cache.get`, `Cache.put`, `Cache.invalidate`, `Cache.clear`, `Cache.list` — artifacts.
* `Cache.conclusions`, `Cache.putConclusions`, `Cache.summary` — the conclusions of an archive.
-/

namespace Distill

/-- A place for a tree of files. -/
structure Cache where
  location : String
  /-- What the directory at the location holds. It is made by the first write. -/
  root : Option FileTree := none
  deriving Repr, Inhabited

/-- Why a cache cannot answer. -/
inductive CacheError where
  | io (e : FileError)
  /-- An entry, or an artifact that is to become one, is not as it must be. -/
  | corrupt (path : String) (c : Cache.Corruption)
  deriving DecidableEq, Repr

/-- The full message. -/
def CacheError.display : CacheError → String
  | io e => "IO error: " ++ e.message
  | corrupt path c => "corrupt cache entry " ++ path ++ ": " ++ c.message

namespace Cache

/-! ## Paths -/

/-- The directory of the artifacts of an archive. -/
def artifactsPath (archive : String) : List String := [encodeName archive, "artifacts"]

/-- The end of the names of artifact files. -/
def fileEnding : String := ".artifact"

/-- The name of the file of a node. -/
def artifactName (node : String) : String := encodeName node ++ fileEnding

/-- The file of a node. -/
def artifactPath (archive node : String) : List String :=
  artifactsPath archive ++ [artifactName node]

/-- The name of the file of conclusions. -/
def conclusionsName : String := "conclusions.json"

/-- The file of the conclusions of an archive. -/
def conclusionsPath (archive : String) : List String := [encodeName archive, conclusionsName]

/-- A path as messages show it. -/
def shown (c : Cache) (path : List String) : String := "/".intercalate (c.location :: path)

/-- The directory of everything about an archive, as commands see it. -/
def archiveDirectory (c : Cache) (archive : String) : String := c.shown [encodeName archive]

/-! ## Reading and writing files -/

/-- What the directory holds; nothing as long as it is not made. -/
def tree (c : Cache) : FileTree := c.root.getD []

/-- The cache when its directory holds these files. -/
def withTree (c : Cache) (t : FileTree) : Cache := { c with root := some t }

@[simp] theorem tree_withTree (c : Cache) (t : FileTree) : (c.withTree t).tree = t := rfl

@[simp] theorem root_withTree (c : Cache) (t : FileTree) : (c.withTree t).root = some t := rfl

/-- What a way into the directory leads to. It is not found as long as the directory is not
made. -/
def find {α : Type} (c : Cache) (look : FileTree → Except FileError α) : Except FileError α :=
  c.root.elim (.error .notFound) look

/-- The content of a file if there is one. -/
def readFile? (c : Cache) (path : List String) : Except CacheError (Option Bytes) :=
  match c.find (·.read path) with
  | .ok data => .ok (some data)
  | .error .notFound => .ok none
  | .error e => .error (.io e)

/-- Write a file completely or not at all. The directory of the cache is made before anything
else. -/
def writeFile (c : Cache) (directory : List String) (name : String) (content : Bytes) :
    Except CacheError Unit × Cache :=
  let (failure, tree) := c.tree.writeAtomic directory name content
  (failure.elim (.ok ()) (.error <| .io ·), c.withTree tree)

/-! ## Artifacts -/

/-- The artifact of a node, if there is one. -/
def get (c : Cache) (archive node : String) : Except CacheError (Option Artifact) := do
  let path := artifactPath archive node
  match ← c.readFile? path with
  | none => return none
  | some data =>
    match decode data with
    | .error e => throw (.corrupt (c.shown path) e)
    | .ok a =>
      if a.node ≠ node then throw (.corrupt (c.shown path) (.otherNode a.node))
      return some a

/-- Store an artifact in place of any other of the same node. -/
def put (c : Cache) (archive : String) (a : Artifact) : Except CacheError Unit × Cache :=
  match encode a with
  | .error e => (.error (.corrupt a.node e), c)
  | .ok data => c.writeFile (artifactsPath archive) (artifactName a.node) data

/-- Drop the artifact of a node; tells whether there was one. -/
def invalidate (c : Cache) (archive node : String) : Except CacheError Bool × Cache :=
  match c.find (·.locate (artifactPath archive node)) with
  | .error .notFound => (.ok false, c)
  | .error e => (.error (.io e), c)
  | .ok path =>
    if c.tree.hasDirectory path then (.error (.io .isDirectory), c)
    else (.ok true, c.withTree (c.tree.erase path))

/-- Drop everything about an archive. -/
def clear (c : Cache) (archive : String) : Except CacheError Unit × Cache :=
  match c.find (·.locate [encodeName archive]) with
  | .error .notFound => (.ok (), c)
  | .error e => (.error (.io e), c)
  | .ok path =>
    match c.tree.entry? path with
    | some (.file _) => (.error (.io .notDirectory), c)
    | _ => (.ok (), c.withTree (c.tree.erase path))

/-- Whether a name is that of an artifact file. -/
def isArtifactName (name : String) : Bool :=
  name.endsWith fileEnding && name ≠ fileEnding

/-- The node of an artifact file if that holds a success. -/
def succeeded? (c : Cache) (path : List String) : Except CacheError (Option String) :=
  match c.find (·.read path) with
  | .error e => .error (.io e)
  | .ok data =>
    match readMarker data with
    | .error e => .error (.corrupt (c.shown path) e)
    | .ok (.succeeded node _, _) => .ok (some node)
    | .ok (.failed .., _) => .ok none

/-- The names of the nodes of an archive that have succeeded, in ascending order. -/
def list (c : Cache) (archive : String) : Except CacheError (List String) := do
  let directory := artifactsPath archive
  match c.find (·.names directory) with
  | .error .notFound => return []
  | .error e => throw (.io e)
  | .ok names =>
    let nodes ← (names.filter isArtifactName).mapM fun name => c.succeeded? (directory ++ [name])
    return (nodes.filterMap id).mergeSort fun a b => a ≤ b

/-! ## Conclusions -/

/-- The octets of a file of conclusions. -/
def encodeConclusions (cs : List Conclusion) : Bytes :=
  Bytes.ofString (Json.array (cs.map Conclusion.toJson)).prettyText

/-- The conclusions of a file. -/
def decodeConclusions? (data : Bytes) : Option (List Conclusion) :=
  (Json.parseRawBytes? data).bind (Json.list? Conclusion.ofJson?)

/-- Store the conclusions of an archive. -/
def putConclusions (c : Cache) (archive : String) (cs : List Conclusion) :
    Except CacheError Unit × Cache :=
  c.writeFile [encodeName archive] conclusionsName (encodeConclusions cs)

/-- The conclusions of an archive, if there are any. -/
def conclusions (c : Cache) (archive : String) : Except CacheError (Option (List Conclusion)) := do
  let path := conclusionsPath archive
  match ← c.readFile? path with
  | none => return none
  | some data =>
    match decodeConclusions? data with
    | some cs => return some cs
    | none => throw (.corrupt (c.shown path) .malformed)

/-- What a list of archives shows of an archive. -/
def summary (c : Cache) (archive : String) : Except CacheError ArchiveSummary := do
  match ← c.conclusions archive with
  | some cs => return { archive, analysed := true, conclusions := LevelCounts.ofConclusions cs }
  | none => return { archive, analysed := false, conclusions := {} }

end Cache

end Distill
