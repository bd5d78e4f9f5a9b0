import Distill.Keyed
import Distill.Text.Bytes

/-!
# Trees of files

A tree is the list of the entries of its root directory. A path is the list of its
components from the root; links are resolved step by step, and nothing outside the tree
exists.

## Main definitions

* `FileTree`, `Entry` — files, symbolic links and directories.
* `FileTree.put`, `FileTree.entry?` — write and look at an entry, without following
  links.
* `FileTree.resolve` — the path without links that a path leads to.
* `FileTree.locate` — the same for the entry that a path names, which may be a link.
* `FileTree.read` — the content of the file that a path leads to.
-/

namespace Distill

/-- Why a path leads to nothing that can be used. -/
inductive FileError where
  | notFound
  | notDirectory
  | isDirectory
  | tooManyLinks
  | nameTooLong
  /-- The content of a file is not a text. -/
  | invalidText
  deriving DecidableEq, Repr

/-- The wording of an error. -/
def FileError.message : FileError → String
  | notFound => "No such file or directory (os error 2)"
  | notDirectory => "Not a directory (os error 20)"
  | isDirectory => "Is a directory (os error 21)"
  | tooManyLinks => "Too many levels of symbolic links (os error 40)"
  | nameTooLong => "File name too long (os error 36)"
  | invalidText => "stream did not contain valid UTF-8"

/-- What a directory holds under a name. -/
inductive Entry where
  | file (content : Bytes)
  | link (target : String)
  | directory (entries : List (String × Entry))
  deriving Repr, Inhabited

/-- The entries of the root. -/
abbrev FileTree := List (String × Entry)

/-- The components of a path; empty ones do not count. -/
def pathComponents (path : String) : List String := (path.splitOn "/").filter (· ≠ "")

namespace FileTree

/-! ## Entries -/

/-- The entries of a directory; anything else has none. -/
def entriesOf : Option Entry → FileTree
  | some (.directory es) => es
  | _ => []

/-- Put an entry at a path, in place of what was there, with the directories above it. -/
def put : List String → Entry → FileTree → FileTree
  | [], _, t => t
  | [name], e, t => insertKey name e t
  | name :: rest, e, t => insertKey name (.directory (put rest e (entriesOf (t.lookup name)))) t

/-- The entry at a path. -/
def entry? : List String → FileTree → Option Entry
  | [], t => some (.directory t)
  | [name], t => t.lookup name
  | name :: rest, t => entry? rest (entriesOf (t.lookup name))

/-- Take the entry at a path away. -/
def erase : List String → FileTree → FileTree
  | [], t => t
  | [name], t => t.filter (·.1 != name)
  | name :: rest, t =>
    match t.lookup name with
    | some (.directory es) => insertKey name (.directory (erase rest es)) t
    | _ => t

/-- Whether there is a directory at a path. -/
def hasDirectory (t : FileTree) (path : List String) : Bool :=
  match t.entry? path with
  | some (.directory _) => true
  | _ => false

/-- Make a directory with those above it unless there is one. -/
def makeDirectory (path : List String) (t : FileTree) : FileTree :=
  if t.hasDirectory path then t else t.put path (.directory [])

/-- How many octets a name may have. -/
def maxNameLength : Nat := 255

/-! ## Links -/

/-- How many links may be followed on one way. -/
def maxLinks : Nat := 40

/-- Where a way leads without a link: to its end, or to a link, whose target and the
components behind it remain. -/
inductive Stretch where
  | arrived (path : List String)
  | link (directory : List String) (target : String) (rest : List String)

/-- Go from a directory along components up to the first link. -/
def walk (t : FileTree) : List String → List String → Except FileError Stretch
  | here, [] => .ok (.arrived here)
  | here, name :: rest =>
    if name = "." then walk t here rest
    else if name = ".." then
      if here.isEmpty then .error .notFound else walk t here.dropLast rest
    else if maxNameLength < name.utf8ByteSize then .error .nameTooLong
    else
      match t.entry? (here ++ [name]) with
      | none => .error .notFound
      | some (.file _) =>
        if rest.isEmpty then .ok (.arrived (here ++ [name])) else .error .notDirectory
      | some (.link target) => .ok (.link here target rest)
      | some (.directory _) => walk t (here ++ [name]) rest

/-- Go from a directory along components, following at most `links` links. A link to an
absolute path leads out of the tree. -/
def resolveFrom (t : FileTree) : Nat → List String → List String → Except FileError (List String)
  | links, here, path =>
    match walk t here path with
    | .error e => .error e
    | .ok (.arrived there) => .ok there
    | .ok (.link directory target rest) =>
      match links with
      | 0 => .error .tooManyLinks
      | links + 1 =>
        if target.startsWith "/" then .error .notFound
        else resolveFrom t links directory (pathComponents target ++ rest)

/-- The path without links that a path leads to. -/
def resolve (t : FileTree) (path : List String) : Except FileError (List String) :=
  t.resolveFrom maxLinks [] path

/-- The path without links of the entry that a path names. A link at its end stands for
itself. -/
def locate (t : FileTree) (path : List String) : Except FileError (List String) := do
  let directory ← t.resolve path.dropLast
  let name := path.getLastD ""
  if !t.hasDirectory directory then throw .notDirectory
  match ← t.walk directory [name] with
  | .arrived there => return there
  | .link directory _ _ => return directory ++ [name]

/-- Whether a path leads to a directory. -/
def isDirectory (t : FileTree) (path : List String) : Bool :=
  match t.resolve path with
  | .ok there => t.hasDirectory there
  | .error _ => false

/-- The content of the file that a path leads to. -/
def read (t : FileTree) (path : List String) : Except FileError Bytes := do
  match t.entry? (← t.resolve path) with
  | some (.file content) => return content
  | some (.directory _) => throw .isDirectory
  | some (.link _) | none => throw .notFound

/-- The text of the file that a path leads to. -/
def readText (t : FileTree) (path : List String) : Except FileError String := do
  match Bytes.text? (← t.read path) with
  | some s => return s
  | none => throw .invalidText

/-- The names in the directory that a path leads to. -/
def names (t : FileTree) (path : List String) : Except FileError (List String) := do
  match t.entry? (← t.resolve path) with
  | some (.directory es) => return es.map (·.1)
  | some (.file _) => throw .notDirectory
  | some (.link _) | none => throw .notFound

mutual

/-- The paths of all files at or below an entry, with their contents. -/
def filesAt (path : List String) : Entry → List (List String × Bytes)
  | .file content => [(path, content)]
  | .link _ => []
  | .directory es => filesIn path es

/-- The paths of all files at or below some entries, with their contents. -/
def filesIn (path : List String) : List (String × Entry) → List (List String × Bytes)
  | [] => []
  | (name, e) :: rest => filesAt (path ++ [name]) e ++ filesIn path rest

end

/-- The paths of all files, with their contents. -/
def files (t : FileTree) : List (List String × Bytes) := filesIn [] t

end FileTree

end Distill
