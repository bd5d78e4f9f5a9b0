import Distill.Yaml.Fault

/-!
# Reading a YAML text with a place in it

## Main definitions

* `Yaml.isBreak`, `Yaml.isBlank` — line breaks, and blanks within a line.
* `Yaml.Cursor` — what is left of a text, and where it starts.
* `Yaml.Token` — what is found in a text, with its places.
-/

namespace Distill.Yaml

/-- The line breaks: carriage return, line feed, next line, line and paragraph
separator. -/
def isBreak (c : Char) : Bool :=
  c == '\n' || c == '\r' || c == '\u0085' || c == '\u2028' || c == '\u2029'

/-- The blanks within a line. -/
def isBlank (c : Char) : Bool := c == ' ' || c == '\t'

/-- Whether a character separates words of a text; so does the end of the text. -/
def isGap : Option Char → Bool
  | none => true
  | some c => isBlank c || isBreak c

/-- Whether a line ends at a character; so it does at the end of the text. -/
def isLineEnd : Option Char → Bool
  | none => true
  | some c => isBreak c

/-- The characters of names. -/
def isNameChar (c : Char) : Bool := c.isAlphanum || c == '_' || c == '-'

/-- What is left of a text, and where it starts. -/
structure Cursor where
  rest : List Char
  mark : Mark := {}
  deriving Repr, Inhabited

namespace Cursor

/-- The next character. -/
def peek (c : Cursor) : Option Char := c.rest.head?

/-- The character `n` places further. -/
def ahead (c : Cursor) (n : Nat) : Option Char := c.rest[n]?

/-- The column. -/
def column (c : Cursor) : Nat := c.mark.column

/-- Whether nothing is left. -/
def atEnd (c : Cursor) : Bool := c.rest.isEmpty

/-- Go on by `n` characters of the same line. -/
def skip (c : Cursor) (n : Nat) : Cursor :=
  { rest := c.rest.drop n
    mark := { c.mark with index := c.mark.index + n, column := c.mark.column + n } }

/-- Go on behind a line break, for which carriage return and line feed count as one. -/
def skipBreak (c : Cursor) : Cursor :=
  match c.rest with
  | '\r' :: '\n' :: rest =>
    { rest, mark := { index := c.mark.index + 2, line := c.mark.line + 1, column := 0 } }
  | ch :: rest =>
    if isBreak ch then
      { rest, mark := { index := c.mark.index + 1, line := c.mark.line + 1, column := 0 } }
    else c
  | [] => c

/-- A line break as scalars keep it, and what follows: separators stay themselves and
all other breaks are line feeds. -/
def readBreak (c : Cursor) : List Char × Cursor :=
  match c.peek with
  | some ch =>
    if ch = '\u2028' ∨ ch = '\u2029' then ([ch], c.skipBreak)
    else if isBreak ch then (['\n'], c.skipBreak)
    else ([], c)
  | none => ([], c)

/-- The longest run of characters of the same line that satisfy `p`, and what follows. -/
def readWhile (c : Cursor) (p : Char → Bool) : List Char × Cursor :=
  let run := c.rest.takeWhile p
  (run, c.skip run.length)

/-- Go on behind characters of the same line that satisfy `p`. -/
def skipWhile (c : Cursor) (p : Char → Bool) : Cursor := (c.readWhile p).2

/-- Go on to the end of the line. -/
def skipLine (c : Cursor) : Cursor := c.skipWhile fun ch => !isBreak ch

/-- Whether a word stands here with a gap behind it. -/
def startsWord (c : Cursor) (word : List Char) : Bool :=
  word.isPrefixOf c.rest && isGap (c.ahead word.length)

/-- Whether a line starts here with a document indicator. -/
def atDocumentIndicator (c : Cursor) : Bool :=
  c.column == 0 && (c.startsWord ['-', '-', '-'] || c.startsWord ['.', '.', '.'])

/-- A fault that shows here. -/
def fault (c : Cursor) (p : Problem) (context : Option (Activity × Mark) := none) : Fault :=
  ⟨p, .mark c.mark, context⟩

end Cursor

/-! ## Tokens -/

/-- How a scalar is written. -/
inductive Style where
  | plain | singleQuoted | doubleQuoted | literal | folded
  deriving DecidableEq, Repr, Inhabited

/-- What a token is. -/
inductive Content where
  | streamStart | streamEnd
  | versionDirective (major minor : Nat)
  | tagDirective (handle stem : String)
  | documentStart | documentEnd
  | blockSequenceStart | blockMappingStart | blockEnd
  | flowSequenceStart | flowSequenceEnd | flowMappingStart | flowMappingEnd
  | blockEntry | flowEntry | key | value
  | reference (name : String)
  | anchor (name : String)
  | tag (handle suffix : String)
  | scalar (text : String) (style : Style)
  deriving DecidableEq, Repr, Inhabited

/-- A token with the places where it starts and stops. -/
structure Token where
  content : Content
  start : Mark
  stop : Mark
  deriving DecidableEq, Repr, Inhabited

end Distill.Yaml
