import Distill.Files.Tree

/-!
# Writing to trees of files

A write that is to be complete or not to happen at all goes to a temporary file, which
then takes the place of the target. It is a list of steps, so that it can be told what
stands in the tree when it is interrupted between two of them.

## Main definitions

* `FileStep` — one operation on a tree; `FileStep.apply` is its effect.
* `FileTree.perform` — steps up to the first that fails.
* `FileTree.atomicSteps`, `FileTree.writeAtomic` — a write by way of a temporary file.
-/

namespace Distill

/-- An operation on a tree of files. -/
inductive FileStep where
  /-- Make a directory unless there is one. -/
  | makeDirectory (path : List String)
  /-- Make a file, or replace the content of one. -/
  | write (path : List String) (content : Bytes)
  /-- Move a file, in place of a file that is there. -/
  | rename (source target : List String)
  | remove (path : List String)
  deriving DecidableEq, Repr

/-- Check that an entry may be made at a path: the directory above exists, the name is
not too long and no directory is there. -/
def FileTree.checkTarget (t : FileTree) (path : List String) : Except FileError Unit :=
  if !t.hasDirectory path.dropLast then
    .error (if (t.entry? path.dropLast).isSome then .notDirectory else .notFound)
  else if FileTree.maxNameLength < (path.getLastD "").utf8ByteSize then .error .nameTooLong
  else if t.hasDirectory path then .error .isDirectory
  else .ok ()

/-- The tree after an operation. -/
def FileStep.apply (t : FileTree) : FileStep → Except FileError FileTree
  | makeDirectory path =>
    if t.hasDirectory path then .ok t
    else do
      t.checkTarget path
      if (t.entry? path).isSome then throw .notDirectory
      return t.put path (.directory [])
  | write path content => do
    t.checkTarget path
    return t.put path (.file content)
  | rename source target => do
    t.checkTarget target
    match t.entry? source with
    | some e => return (t.erase source).put target e
    | none => throw .notFound
  | remove path =>
    match t.entry? path with
    | some (.directory _) => .error .isDirectory
    | some _ => .ok (t.erase path)
    | none => .error .notFound

namespace FileTree

/-- Steps up to the first that fails: why it failed, if one did, and the tree then. -/
def perform : List FileStep → FileTree → Option FileError × FileTree
  | [], t => (none, t)
  | s :: rest, t =>
    match s.apply t with
    | .ok t => perform rest t
    | .error e => (some e, t)

/-- The directories on the way to a path, itself included. -/
def directoriesTo (path : List String) : List (List String) :=
  (List.range path.length).map fun n => path.take (n + 1)

/-- A name that no entry has. -/
def temporaryName (taken : List String) : String :=
  let names := (List.range (taken.length + 1)).map fun n => ".tmp" ++ toString n
  (names.find? fun name => !taken.contains name).getD ".tmp"

/-- The steps of a write by way of a temporary file. -/
def atomicSteps (directory : List String) (name temporary : String) (content : Bytes) :
    List FileStep :=
  (directoriesTo directory).map .makeDirectory ++
    [.write (directory ++ [temporary]) [], .write (directory ++ [temporary]) content,
      .rename (directory ++ [temporary]) (directory ++ [name])]

/-- Write a file by way of a temporary one, which does not outlive a failure. -/
def writeAtomic (directory : List String) (name : String) (content : Bytes) (t : FileTree) :
    Option FileError × FileTree :=
  let temporary := temporaryName ((entriesOf (t.entry? directory)).map (·.1))
  match perform (atomicSteps directory name temporary content) t with
  | (none, t) => (none, t)
  | (some e, t) =>
    (some e, if t.hasDirectory directory then t.erase (directory ++ [temporary]) else t)

end FileTree

end Distill
