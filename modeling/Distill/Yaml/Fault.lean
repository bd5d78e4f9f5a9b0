/-!
# Places and faults in YAML texts

## Main definitions

* `Yaml.Mark` — a place in a text.
* `Yaml.Problem`, `Yaml.Activity` — what can be wrong with a text, and what was being
  read when it showed.
* `Yaml.Fault` — a problem with its place and context, and its wording.
-/

namespace Distill.Yaml

/-- A place in a text; all numbers count from zero. -/
structure Mark where
  /-- Characters before the place. -/
  index : Nat := 0
  line : Nat := 0
  column : Nat := 0
  deriving DecidableEq, Repr, Inhabited

namespace Mark

/-- Whether the place is the very start of a text. -/
def isStart (m : Mark) : Bool := m.line == 0 && m.column == 0

/-- Whether two places are on the same line and column. -/
def sameSpot (m n : Mark) : Bool := m.line == n.line && m.column == n.column

/-- The line and the column, counted from one. -/
def display (m : Mark) : String :=
  "line " ++ toString (m.line + 1) ++ " column " ++ toString (m.column + 1)

end Mark

/-- What can be wrong with a text. -/
inductive Problem where
  | controlCharacter
  | cannotStartToken
  | missingColon
  | entriesNotAllowed
  | keysNotAllowed
  | valuesNotAllowed
  | unknownDirective
  | missingDirectiveName
  | nonAlphabeticDirective
  | missingCommentOrBreak
  | longVersionNumber
  | missingVersionNumber
  | missingDigitOrDot
  | missingWhitespace
  | missingWhitespaceOrBreak
  | missingAnchorCharacter
  | missingTagEnd
  | missingBang
  | missingTagUri
  | missingUriOctet
  | badLeadingOctet
  | badTrailingOctet
  | zeroIndentation
  | tabInIndentation
  | documentIndicatorInScalar
  | unexpectedEnd
  | unknownEscape
  | missingHexadecimal
  | invalidUnicode
  | tabViolatesIndentation
  | unexpectedColon
  | missingDocumentStart
  | duplicateVersion
  | incompatibleDocument
  | duplicateTagDirective
  | undefinedTagHandle
  | missingNodeContent
  | missingDash
  | missingKey
  | missingCommaOrBracket
  | missingCommaOrBrace
  deriving DecidableEq, Repr

/-- The wording of a problem. -/
def Problem.message : Problem → String
  | controlCharacter => "control characters are not allowed"
  | cannotStartToken => "found character that cannot start any token"
  | missingColon => "could not find expected ':'"
  | entriesNotAllowed => "block sequence entries are not allowed in this context"
  | keysNotAllowed => "mapping keys are not allowed in this context"
  | valuesNotAllowed => "mapping values are not allowed in this context"
  | unknownDirective => "found unknown directive name"
  | missingDirectiveName => "could not find expected directive name"
  | nonAlphabeticDirective => "found unexpected non-alphabetical character"
  | missingCommentOrBreak => "did not find expected comment or line break"
  | longVersionNumber => "found extremely long version number"
  | missingVersionNumber => "did not find expected version number"
  | missingDigitOrDot => "did not find expected digit or '.' character"
  | missingWhitespace => "did not find expected whitespace"
  | missingWhitespaceOrBreak => "did not find expected whitespace or line break"
  | missingAnchorCharacter => "did not find expected alphabetic or numeric character"
  | missingTagEnd => "did not find the expected '>'"
  | missingBang => "did not find expected '!'"
  | missingTagUri => "did not find expected tag URI"
  | missingUriOctet => "did not find URI escaped octet"
  | badLeadingOctet => "found an incorrect leading UTF-8 octet"
  | badTrailingOctet => "found an incorrect trailing UTF-8 octet"
  | zeroIndentation => "found an indentation indicator equal to 0"
  | tabInIndentation => "found a tab character where an indentation space is expected"
  | documentIndicatorInScalar => "found unexpected document indicator"
  | unexpectedEnd => "found unexpected end of stream"
  | unknownEscape => "found unknown escape character"
  | missingHexadecimal => "did not find expected hexdecimal number"
  | invalidUnicode => "found invalid Unicode character escape code"
  | tabViolatesIndentation => "found a tab character that violates indentation"
  | unexpectedColon => "found unexpected ':'"
  | missingDocumentStart => "did not find expected <document start>"
  | duplicateVersion => "found duplicate %YAML directive"
  | incompatibleDocument => "found incompatible YAML document"
  | duplicateTagDirective => "found duplicate %TAG directive"
  | undefinedTagHandle => "found undefined tag handle"
  | missingNodeContent => "did not find expected node content"
  | missingDash => "did not find expected '-' indicator"
  | missingKey => "did not find expected key"
  | missingCommaOrBracket => "did not find expected ',' or ']'"
  | missingCommaOrBrace => "did not find expected ',' or '\x7d'"

/-- What was being read. -/
inductive Activity where
  | nextToken
  | simpleKey
  | directive
  | versionDirective
  | tagDirectiveLine
  | tagDirectiveHandle
  | tagDirectiveBang
  | tagDirectiveStem
  | anchor
  | reference
  | tag
  | tagUri
  | blockScalar
  | quotedScalar
  | quotedEscape
  | plainScalar
  | node
  | blockNode
  | flowNode
  | blockCollection
  | blockMapping
  | flowSequence
  | flowMapping
  deriving DecidableEq, Repr

/-- The wording of an activity. -/
def Activity.message : Activity → String
  | nextToken => "while scanning for the next token"
  | simpleKey => "while scanning a simple key"
  | directive => "while scanning a directive"
  | versionDirective => "while scanning a %YAML directive"
  | tagDirectiveLine => "while scanning a %TAG directive"
  | tagDirectiveHandle => "while scanning a tag directive"
  | tagDirectiveBang => "while parsing a tag directive"
  | tagDirectiveStem => "while parsing a %TAG directive"
  | anchor => "while scanning an anchor"
  | reference => "while scanning an alias"
  | tag => "while scanning a tag"
  | tagUri => "while parsing a tag"
  | blockScalar => "while scanning a block scalar"
  | quotedScalar => "while scanning a quoted scalar"
  | quotedEscape => "while parsing a quoted scalar"
  | plainScalar => "while scanning a plain scalar"
  | node => "while parsing a node"
  | blockNode => "while parsing a block node"
  | flowNode => "while parsing a flow node"
  | blockCollection => "while parsing a block collection"
  | blockMapping => "while parsing a block mapping"
  | flowSequence => "while parsing a flow sequence"
  | flowMapping => "while parsing a flow mapping"

/-- Where a problem shows: at a place, or, before places are counted, after a number of
octets. -/
inductive Site where
  | mark (m : Mark)
  | octet (offset : Nat)
  deriving DecidableEq, Repr

/-- A problem with its place, and what was being read with the place where that began. -/
structure Fault where
  problem : Problem
  site : Site
  context : Option (Activity × Mark) := none
  deriving DecidableEq, Repr

namespace Fault

/-- The place of the problem; the start of the text when only octets were counted. -/
def mark (f : Fault) : Mark :=
  match f.site with
  | .mark m => m
  | .octet _ => {}

/-- The problem and its place, then the context and its place. The start of the text is
no place worth telling, nor is the place of the context when it is that of the
problem. -/
def message (f : Fault) : String :=
  let place := match f.site with
    | .mark m => if m.isStart then "" else " at " ++ m.display
    | .octet n => if n = 0 then "" else " at position " ++ toString n
  let context := match f.context with
    | none => ""
    | some (a, m) =>
      ", " ++ a.message ++
        (if m.isStart || m.sameSpot f.mark then "" else " at " ++ m.display)
  f.problem.message ++ place ++ context

end Fault

end Distill.Yaml
