/-!
# Scripts of shells

## Main definitions

* `Shell.Dialect` — the shells there are.
* `Shell.WordPart`, `Shell.Word` — words before they are expanded.
* `Shell.Command` — commands and what combines them.
* `Shell.Script` — a script, line by line, up to its first error.
-/

namespace Distill.Shell

/-- The shells there are. -/
inductive Dialect where
  | standard
  | bash
  deriving DecidableEq, Repr, Inhabited

/-- What is made of the value of a parameter. -/
inductive Treatment where
  | value
  | length
  /-- A word in place of a parameter that is not set, or also of an empty one. -/
  | fallback (orEmpty : Bool)
  /-- The same; the parameter takes the value of the word. -/
  | assign (orEmpty : Bool)
  /-- A word in place of a parameter that is set, or that is not empty. -/
  | replacement (orEmpty : Bool)
  /-- It is an error that the parameter is not set, or is empty. -/
  | demand (orEmpty : Bool)
  /-- The value without a start that matches a pattern. -/
  | dropStart (longest : Bool)
  /-- The value without an end that matches a pattern. -/
  | dropEnd (longest : Bool)
  /-- A part of the value, or of several values, from a place on. -/
  | slice
  /-- The value with parts that match a pattern replaced: the first, all, or that at the
  start or the end. -/
  | substitute (place : Option Char)
  /-- The value in upper or lower case, or only its first character. -/
  | letterCase (upper all : Bool)
  /-- It is an error to expand this. -/
  | bad
  deriving DecidableEq, Repr, Inhabited

/-- A part of a word before it is expanded. -/
inductive WordPart where
  /-- Characters outside of quotes. -/
  | plain (s : String)
  /-- Characters in quotes. -/
  | literal (s : String)
  | parameter (quoted : Bool) (name : String) (index : Option String) (t : Treatment)
      (word more : List WordPart)
  /-- The output of a script. -/
  | output (quoted : Bool) (script : String)
  | arithmetic (quoted : Bool) (expression : List WordPart)
  deriving Repr, Inhabited

/-- A word before it is expanded. -/
abbrev Word := List WordPart

/-- The word that consists of plain characters. -/
def Word.ofPlain (s : String) : Word := [.plain s]

/-- The characters of a word without quotes and expansions. -/
def Word.plain? : Word → Option String
  | [.plain s] => some s
  | _ => none

/-- How a descriptor is changed. -/
inductive RedirectKind where
  | input
  | output
  | append
  | duplicate
  /-- The input is the word itself, with or without a newline behind it. -/
  | text (newline : Bool)
  /-- Output and error output go to a file. -/
  | both
  deriving DecidableEq, Repr, Inhabited

/-- A change of a descriptor for a command. -/
structure Redirect where
  descriptor : Nat
  kind : RedirectKind
  target : Word
  deriving Repr, Inhabited

/-- A value that is given to a variable. -/
inductive Given where
  | word (w : Word)
  /-- A word behind the value that is there. -/
  | more (w : Word)
  | array (ws : List Word)
  /-- Items behind those that are there. -/
  | moreItems (ws : List Word)
  deriving Repr, Inhabited

/-- A variable, or an item of one, with the value it is given. -/
structure Assignment where
  name : String
  index : Option String
  given : Given
  deriving Repr, Inhabited

/-- A command. -/
inductive Command where
  | simple (line : Nat) (assignments : List Assignment) (words : List Word)
      (redirects : List Redirect)
  | pipeline (negated : Bool) (commands : List Command)
  | andThen (a b : Command)
  | orElse (a b : Command)
  | sequence (commands : List Command)
  | background (c : Command)
  | subshell (c : Command)
  | conditional (condition positive : Command) (negative : Option Command)
  | loop (while_ : Bool) (condition body : Command)
  /-- The body as long as a condition holds; the last expression follows each round. -/
  | counted (line : Nat) (start condition next : Word) (body : Command)
  /-- The body for each word; for each positional parameter without words. -/
  | forEach (line : Nat) (name : String) (words : Option (List Word)) (body : Command)
  | choice (line : Nat) (w : Word) (clauses : List (List Word × Command))
  | function (name : String) (body : Command)
  /-- A test between double brackets. -/
  | condition (line : Nat) (words : List Word)
  | arithmetic (line : Nat) (expression : Word)
  | redirected (line : Nat) (c : Command) (redirects : List Redirect)
  deriving Repr, Inhabited

/-- Why a script cannot be read on. -/
inductive SyntaxError where
  | unterminatedQuote (quote : Char)
  /-- A script in a word has no end; it may be between back quotes. -/
  | unterminatedOutput (backQuotes : Bool)
  | unterminatedExpression
  | unterminatedParameter
  /-- A token stands where it may not, with the one that should. -/
  | unexpected (token : String) (expected : Option String)
  | badLoopVariable
  deriving DecidableEq, Repr, Inhabited

/-- A script, line by line, up to its first error and the line of that. -/
structure Script where
  lines : List Command
  error : Option (SyntaxError × Nat)
  deriving Repr, Inhabited

end Distill.Shell
