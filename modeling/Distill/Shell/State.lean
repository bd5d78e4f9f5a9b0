import Distill.Files.Writing
import Distill.Shell.Script

/-!
# The state of a shell

Output goes to channels, which collect it; input comes from sources, which are read to
their end. Time passes only while a command waits.

## Main definitions

* `Shell.State` — what a shell knows and has done.
* `Shell.Flow`, `Shell.Running` — actions that may leave the course of a script.
* `Shell.say`, `Shell.complain` — output and error output.
* `Shell.readPath`, `Shell.writePath` — files.
-/

namespace Distill.Shell

/-- The value of a variable. -/
inductive Variable where
  | text (s : String)
  | array (items : List String)
  deriving DecidableEq, Repr, Inhabited

/-- What a descriptor leads to. -/
inductive Descriptor where
  /-- Output that is collected. -/
  | channel (n : Nat)
  /-- Input that is read. -/
  | source (n : Nat)
  /-- Output is put behind what is in a file. -/
  | file (path : List String)
  | null
  deriving DecidableEq, Repr, Inhabited

/-- The options of a shell. -/
structure Options where
  /-- Leave when a command fails. -/
  exitOnFailure : Bool := false
  /-- It is an error to expand a parameter that is not set. -/
  demandSet : Bool := false
  /-- Words are not expanded to paths. -/
  noPaths : Bool := false
  /-- A pipeline fails if one of its commands does. -/
  pipeFails : Bool := false
  deriving DecidableEq, Repr, Inhabited

/-- What a shell knows and has done. -/
structure State where
  dialect : Dialect
  name : String
  params : List String
  /-- All files there are. -/
  files : FileTree
  /-- The current directory. -/
  current : List String
  bindings : List (String × Variable) := []
  /-- The variables that are handed to other programs. -/
  exported : List String := []
  /-- The variables that keep their values. -/
  constants : List String := []
  /-- The values that variables of a function had outside of it. -/
  outer : List (String × Option Variable) := []
  functions : List (String × Command) := []
  options : Options := {}
  status : Nat := 0
  /-- The line that is run. -/
  line : Nat := 1
  /-- Failure is looked at by the script itself. -/
  tested : Bool := false
  /-- How many functions and loops are being run. -/
  functionDepth : Nat := 0
  loopDepth : Nat := 0
  /-- The microseconds that have passed. -/
  clock : Nat := 0
  /-- When everything that was left in the background has ended. -/
  backgroundEnd : Nat := 0
  /-- When time is up. -/
  deadline : Option Nat := none
  /-- What the channels have collected, the latest first. -/
  channels : List (List Bytes) := [[], []]
  /-- What the sources still give. -/
  sources : List Bytes := []
  descriptors : List (Nat × Descriptor) := [(0, .null), (1, .channel 0), (2, .channel 1)]
  /-- A script that is run at the end. -/
  atExit : Option String := none
  deriving Repr, Inhabited

/-- How the course of a script is left. -/
inductive Flow where
  | exit
  /-- Leave loops. -/
  | leave (loops : Nat)
  /-- Start a loop again, leaving those inside it. -/
  | again (loops : Nat)
  /-- Leave a function. -/
  | back
  /-- Time is up. -/
  | expired
  /-- A signal ends the shell. -/
  | killed
  deriving DecidableEq, Repr, Inhabited

/-- An action that may leave the course of a script. -/
abbrev Running := ExceptT Flow (StateM State)

/-- The number by which commands are known to others. -/
def processNumber : String := "4242"

/-- Set the status. -/
def finish (status : Nat) : Running Unit := modify fun s => { s with status }

/-! ## Output and input -/

/-- What a descriptor leads to. -/
def State.descriptor? (s : State) (fd : Nat) : Option Descriptor := s.descriptors.lookup fd

/-- The same state with a descriptor that leads elsewhere. -/
def State.setDescriptor (s : State) (fd : Nat) (d : Option Descriptor) : State :=
  let rest := s.descriptors.filter (·.1 != fd)
  { s with descriptors := (d.map (fd, ·)).toList ++ rest }

/-- Data that is written to a descriptor. -/
def State.write (s : State) (fd : Nat) (data : Bytes) : State :=
  match s.descriptor? fd with
  | some (.channel n) => { s with channels := s.channels.modify n (data :: ·) }
  | some (.file path) =>
    match s.files.entry? path with
    | some (.file content) =>
      { s with files := FileTree.put path (.file (content ++ data)) s.files }
    | _ => s
  | _ => s

/-- What a channel has collected. -/
def State.collected (s : State) (n : Nat) : Bytes := (s.channels.getD n []).reverse.flatten

/-- Write data to the output. -/
def put (data : Bytes) : Running Unit := modify (·.write 1 data)

/-- Write a text to the output. -/
def say (text : String) : Running Unit := put (Bytes.ofString text)

/-- Write a line to the error output and set the status. -/
def grumble (text : String) (status : Nat) : Running Unit := do
  modify (·.write 2 (Bytes.ofString (text ++ "\n")))
  finish status

/-- A message of the shell itself: it starts with the name and the line. -/
def complain (text : String) (status : Nat) : Running Unit := do
  let s ← get
  let line := if s.dialect = .bash then "line " ++ toString s.line else toString s.line
  grumble (s.name ++ ": " ++ line ++ ": " ++ text) status

/-- All that the input still gives. -/
def takeInput : Running Bytes := do
  let s ← get
  match s.descriptor? 0 with
  | some (.source n) =>
    set { s with sources := s.sources.set n [] }
    return s.sources.getD n []
  | _ => return []

/-- Put data back before what the input still gives. -/
def returnInput (data : Bytes) : Running Unit := do
  let s ← get
  match s.descriptor? 0 with
  | some (.source n) => set { s with sources := s.sources.modify n (data ++ ·) }
  | _ => pure ()

/-- The input comes from data. -/
def State.feed (s : State) (fd : Nat) (data : Bytes) : State :=
  { s with sources := s.sources ++ [data] }.setDescriptor fd (some (.source s.sources.length))

/-! ## Variables -/

/-- The text of a variable; that of an array is its first item. -/
def State.text? (s : State) (name : String) : Option String :=
  match s.bindings.lookup name with
  | some (.text t) => some t
  | some (.array items) => items.head?
  | none => none

/-- Set a variable. -/
def State.setVariable (s : State) (name : String) (v : Variable) : State :=
  { s with bindings := insertKey name v s.bindings }

/-- Give a variable the value again that it had. -/
def State.restore (s : State) (name : String) (v : Option Variable) : State :=
  match v with
  | some v => s.setVariable name v
  | none => { s with bindings := s.bindings.filter (·.1 != name) }

/-- The items of a variable. -/
def State.items (s : State) (name : String) : List String :=
  match s.bindings.lookup name with
  | some (.text t) => [t]
  | some (.array items) => items
  | none => []

/-! ## Files -/

/-- The wording of an error about a file. -/
def reason (e : FileError) : String :=
  match e with
  | .notFound => "No such file or directory"
  | .notDirectory => "Not a directory"
  | .isDirectory => "Is a directory"
  | .tooManyLinks => "Too many levels of symbolic links"
  | .nameTooLong => "File name too long"
  | .invalidText => "Invalid argument"

/-- The components of a path from the root. -/
def State.absolute (s : State) (path : String) : List String :=
  if path.startsWith "/" then pathComponents path else s.current ++ pathComponents path

/-- The path without links that a path leads to. -/
def State.resolve (s : State) (path : String) : Except FileError (List String) :=
  if path = "" then .error .notFound else s.files.resolve (s.absolute path)

/-- The entry that a path leads to. -/
def State.entry? (s : State) (path : String) : Option Entry :=
  match s.resolve path with
  | .ok there => s.files.entry? there
  | .error _ => none

/-- The file that stands for no data at all. -/
def nullPath : String := "/dev/null"

/-- The content of the file that a path leads to. -/
def readPath (path : String) : Running (Except FileError Bytes) := do
  if path = nullPath then return .ok []
  if path = "-" || path = "/dev/stdin" then return .ok (← takeInput)
  let s ← get
  match s.resolve path with
  | .error e => return .error e
  | .ok there => return s.files.read there

/-- The place where a path would make a file: the directory above has to exist. -/
def State.target (s : State) (path : String) : Except FileError (List String) :=
  if path = "" then .error .notFound
  else match s.resolve path with
  | .ok there => if s.files.hasDirectory there then .error .isDirectory else .ok there
  | .error .notFound =>
    let whole := s.absolute path
    match whole.getLast?, s.files.resolve whole.dropLast with
    | some name, .ok directory =>
      if path.endsWith "/" then .error .isDirectory
      else if s.files.hasDirectory directory then .ok (directory ++ [name])
      else .error .notDirectory
    | _, .error e => .error e
    | none, _ => .error .isDirectory
  | .error e => .error e

/-- Make a file at a path, or replace its content. -/
def writePath (path : String) (data : Bytes) : Running (Except FileError Unit) := do
  if path = nullPath then return .ok ()
  let s ← get
  match s.target path with
  | .error e => return .error e
  | .ok there =>
    set { s with files := FileTree.put there (.file data) s.files }
    return .ok ()

/-! ## Time -/

/-- Wait for so many microseconds. -/
def wait (duration : Nat) : Running Unit := do
  let s ← get
  let clock := s.clock + duration
  set { s with clock }
  if s.deadline.any (· ≤ clock) then throw .expired

end Distill.Shell
