import Distill.Step.Basic
import Distill.Template
import Distill.Text.Basic

/-!
# Command lines

A command is a script for a shell. Its parameters reach the last command of the script
as positional parameters.

## Main definitions

* `Command.withParams` — the script with its parameters handed to the last command.
* `Command.placeholders` — the tokens that commands may use.
* `Command.excerpt` — the part of an error output that messages show.
-/

namespace Distill.Command

/-! ## Parameters -/

/-- The quotes that a place in a line is in. -/
inductive Quoting where
  | plain | single | double
  deriving DecidableEq, Repr, Inhabited

/-- A line up to its comment: an unquoted number sign after a blank or at the start. The
flags tell whether the next character is escaped, and whether the last one was blank. -/
def dropComment (q : Quoting) (escaped blank : Bool) : List Char → List Char
  | [] => []
  | c :: rest =>
    if escaped then c :: dropComment q false (isBlank c) rest
    else match q with
      | .single => c :: dropComment (if c = '\'' then .plain else .single) false (isBlank c) rest
      | .double =>
        if c = '\\' then c :: dropComment .double true (isBlank c) rest
        else c :: dropComment (if c = '"' then .plain else .double) false (isBlank c) rest
      | .plain =>
        if c = '\\' then c :: dropComment .plain true (isBlank c) rest
        else if c = '\'' then c :: dropComment .single false (isBlank c) rest
        else if c = '"' then c :: dropComment .double false (isBlank c) rest
        else if c = '#' ∧ blank then []
        else c :: dropComment .plain false (isBlank c) rest

/-- The lines before the last one with their ends, and the last line. -/
def splitLastLine (script : List Char) : List Char × List Char :=
  let last := (script.reverse.takeWhile (· != '\n')).reverse
  (script.take (script.length - last.length), last)

/-- A script without the comment on its last line. -/
def dropTrailingComment (script : List Char) : List Char :=
  let (before, last) := splitLastLine script
  before ++ dropComment .plain false true last

/-- Why parameters cannot be handed to a script. -/
inductive ParamsError where
  | emptyCommand
  /-- The last command is over. -/
  | endsInOperator (op : Char)
  deriving DecidableEq, Repr

/-- The wording of an error. -/
def ParamsError.message : ParamsError → String
  | emptyCommand => "command is empty"
  | endsInOperator op => "params cannot follow a command ending in " ++ quoted op.toString

/-- The characters at the end of a script behind which no parameter belongs to a command. -/
def operators : List Char := [';', '&', '|', '\\']

/-- A script without blanks and a comment at its end. -/
def body (command : String) : List Char :=
  dropEndWhile isBlank (dropTrailingComment (dropEndWhile isBlank command.toList))

/-- The script whose last command has all parameters behind its own. -/
def withParams (command : String) : Except ParamsError String :=
  let script := body command
  match script.getLast? with
  | none => .error .emptyCommand
  | some c =>
    if operators.contains c then .error (.endsInOperator c)
    else .ok (String.ofList script ++ " \"$@\"")

/-! ## Placeholders -/

/-- The tokens that commands and their parameters may use. -/
def placeholders : List String := ["files", "archive", "workdir", "name"]

/-! ## Error output -/

/-- How many octets of an error output messages show at most. -/
def maxExcerpt : Nat := 512

/-- The longest start of a text with at most so many octets. -/
def takeOctets : Nat → List Char → List Char
  | _, [] => []
  | n, c :: rest => if c.utf8Size ≤ n then c :: takeOctets (n - c.utf8Size) rest else []

/-- The start of a text that messages show. -/
def excerpt (s : String) : String := String.ofList (takeOctets maxExcerpt s.toList)

end Distill.Command
