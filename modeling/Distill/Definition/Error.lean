import Distill.Definition.Excerpt
import Distill.Files.Tree
import Distill.Filter.Eval
import Distill.Step.Command
import Distill.Yaml.Decode

/-!
# Errors of definitions

## Main definitions

* `Definition.Problem` — what can be wrong with definitions, and its wording.
* `Definition.Error` — a problem with the node, the file and the place it concerns.
* `Definition.Error.display` — the full message.
-/

namespace Distill.Definition

/-- The kinds of errors. -/
inductive ErrorKind where
  /-- The text cannot be decoded. -/
  | syntaxError
  /-- Two nodes have one name. -/
  | duplicateName
  | unknownType
  /-- A field that is required is absent. -/
  | missingField
  /-- A field does not belong to its record. -/
  | invalidField
  | invalidValue
  /-- A file cannot be read. -/
  | io
  deriving DecidableEq, Repr

/-- What can be wrong with definitions. -/
inductive Problem where
  | undecodable (e : Yaml.Error)
  | duplicateName (name : String)
  | unknownType (type : String)
  | missingField (field : String)
  | foreignField (field type : String)
  | chainEntryField (field : String)
  /-- A document is no list of records. -/
  | unknownFormat (v : Yaml.Value)
  | malformedRecord (c : Yaml.Complaint)
  | malformedField (field : String) (c : Yaml.Complaint)
  /-- A chain that starts with a command has a source. -/
  | sourceOfCommandChain
  | analysisInChain
  | emptyChain
  | invalidTemplate (field : String) (e : TemplateError)
  | unknownPlaceholder (token field : String)
  | invalidCommand (e : Command.ParamsError)
  | invalidFilter (expression : String) (e : Filter.SyntaxError)
  | invalidLevel (name : String)
  | invalidDescription (e : TemplateError)
  | unreadable (e : FileError)
  deriving Repr

namespace Problem

/-- The kind of a problem. -/
def kind : Problem → ErrorKind
  | undecodable _ => .syntaxError
  | duplicateName _ => .duplicateName
  | unknownType _ => .unknownType
  | missingField _ => .missingField
  | foreignField .. | chainEntryField _ => .invalidField
  | unreadable _ => .io
  | unknownFormat _ | malformedRecord _ | malformedField .. | sourceOfCommandChain
  | analysisInChain | emptyChain | invalidTemplate .. | unknownPlaceholder .. | invalidCommand _
  | invalidFilter .. | invalidLevel _ | invalidDescription _ => .invalidValue

/-! ## Wording -/

/-- What follows the first place of a word in a text. -/
def after? (word : List Char) : List Char → Option (List Char)
  | [] => if word.isEmpty then some [] else none
  | c :: rest =>
    if word.isPrefixOf (c :: rest) then some ((c :: rest).drop word.length) else after? word rest

/-- What precedes the first place of a word in a text. -/
def before? (word : List Char) : List Char → Option (List Char)
  | [] => if word.isEmpty then some [] else none
  | c :: rest =>
    if word.isPrefixOf (c :: rest) then some [] else (before? word rest).map (c :: ·)

/-- What stands between the first place of a word and the next place of another. -/
def between? (start stop : String) (text : List Char) : Option (List Char) :=
  (after? start.toList text).bind (before? stop.toList)

/-- The wording of a fault of a text: what was expected and found when a value has the
wrong type, else the message up to the place, which is told apart. -/
def decodingMessage (e : Yaml.Error) : String :=
  let text := e.message.toList
  let mismatch : Option String := do
    let _ ← after? "invalid type".toList text
    let expected ← between? "expected " " at" text
    let found ← between? "invalid type: " "," text
    return "expected " ++ String.ofList expected ++ ", but found " ++ String.ofList found
  mismatch.getD (String.ofList ((before? " at line ".toList text).getD text))

/-- The wording of a problem. -/
def message : Problem → String
  | undecodable e => decodingMessage e
  | duplicateName name => "duplicate definition with name " ++ quoted name
  | unknownType type => "type " ++ quoted type ++ " is unknown"
  | missingField field => "missing required field " ++ quoted field
  | foreignField field type =>
    "field " ++ quoted field ++ " is not valid for type " ++ quoted type
  | chainEntryField field => "chain entries must not include " ++ quoted field
  | unknownFormat v => "unknown definition format: " ++ v.debugText
  | malformedRecord c => "invalid node record: " ++ c.message
  | malformedField field c => "invalid " ++ quoted field ++ " field: " ++ c.message
  | sourceOfCommandChain => "a chain starting with an exec step cannot have a 'source'"
  | analysisInChain => "chain entries cannot be of type 'analysis'"
  | emptyChain => "requires at least one chain entry"
  | invalidTemplate field e => "invalid " ++ quoted field ++ " template: " ++ e.display
  | unknownPlaceholder token field =>
    "unknown placeholder '\x7b" ++ token ++ "\x7d' in " ++ quoted field
  | invalidCommand e => "invalid 'exec' command: " ++ e.message
  | invalidFilter expression e => "invalid jq filter " ++ quoted expression ++ ": " ++ e.display
  | invalidLevel name => Level.unknownMessage name
  | invalidDescription e => "invalid description: " ++ e.display
  | unreadable e => "failed to read definitions: " ++ e.message

/-- A suggestion that needs nothing but the problem. -/
def hint : Problem → Option String
  | unknownType _ => some ("valid types are: " ++ ", ".intercalate Step.typeNames)
  | unknownPlaceholder .. =>
    some ("available placeholders: " ++ ", ".intercalate Command.placeholders ++
      "; write '\x7b\x7b' and '\x7d\x7d' for literal braces")
  | _ => none

end Problem

/-- A problem with what it concerns. -/
structure Error where
  problem : Problem
  /-- The name of the node. -/
  node : Option String := none
  /-- The path of the file. -/
  file : Option String := none
  /-- The line, counted from one; zero when there is none. -/
  line : Nat := 0
  /-- The column, counted from one; zero when there is none. -/
  column : Nat := 0
  /-- The lines around the place. -/
  context : String := ""
  hint : Option String := none
  deriving Repr

namespace Error

/-- A problem of which no place is known. -/
def of (p : Problem) : Error := { problem := p, hint := p.hint }

/-- A fault of a source text, with the lines around it. -/
def ofYaml (source : String) (e : Yaml.Error) : Error :=
  let (line, column) := e.location.getD (0, 0)
  { problem := .undecodable e, line, column
    context := Excerpt.context source (.ofNat line) (.ofNat column) Excerpt.contextLines
    hint := Excerpt.hint source line }

/-- The error of a node, in place of any other. -/
def withNode (e : Error) (name : String) : Error := { e with node := some name }

/-- The error of a node unless it has one. -/
def orNode (e : Error) (name : String) : Error := { e with node := e.node.or (some name) }

/-- The error of a file, in place of any other. -/
def withFile (e : Error) (path : String) : Error := { e with file := some path }

/-- The error of a file unless it has one. -/
def orFile (e : Error) (path : Option String) : Error := { e with file := e.file.or path }

/-- The kind of the problem. -/
def kind (e : Error) : ErrorKind := e.problem.kind

/-- What is wrong. -/
def message (e : Error) : String := e.problem.message

/-- The full message: node, wording, place, lines around it and suggestion. -/
def display (e : Error) : String :=
  let start := match e.node with
    | some name => "definition error in " ++ quoted name ++ ": " ++ e.message
    | none => "definition error: " ++ e.message
  let spot := toString e.line ++ ":" ++ toString e.column
  let place := match e.file with
    | some path => "\n  --> " ++ path ++ (if e.line = 0 then "" else ":" ++ spot)
    | none => if e.line = 0 then "" else "\n  --> line " ++ spot
  let context := if e.context.isEmpty then "" else "\n\n" ++ trimBlankEnd e.context
  let hint := match e.hint with
    | some text => "\nhelp: " ++ text
    | none => ""
  start ++ place ++ context ++ hint

end Error

end Distill.Definition
