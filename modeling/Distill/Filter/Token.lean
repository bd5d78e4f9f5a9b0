import Distill.Number.Decimal
import Distill.Text.Basic

/-!
# Tokens of the filter language

A filter is a text; its tokens are separated by white space where they would run
together otherwise.

## Main definitions

* `Filter.Token`, `Filter.Lexeme` — a token, and a token with the octet offset at which
  it starts.
* `Filter.SyntaxError` — why a text is no filter, with the offset of the fault.
* `Filter.tokenize` — the tokens of a text, the end of the filter last.
-/

namespace Distill.Filter

/-- A token. -/
inductive Token where
  | null
  | bool (b : Bool)
  | number (n : Binary64)
  | string (s : String)
  /-- A word written directly after a dot. -/
  | field (name : String)
  /-- A bare word: a function, `and`, `or`. -/
  | identifier (name : String)
  | dot | pipe | comma | semicolon | question | minus
  | eq | ne | lt | le | gt | ge
  | leftParen | rightParen | leftBracket | rightBracket
  /-- The end of the filter. -/
  | finish
  deriving DecidableEq, Repr, Inhabited

/-- How messages show a token. -/
def Token.display : Token → String
  | null => "null"
  | bool b => if b then "true" else "false"
  | number n => n.plainText
  | string s => "\"" ++ s ++ "\""
  | field name => "." ++ name
  | identifier name => name
  | dot => "."
  | pipe => "|"
  | comma => ","
  | semicolon => ";"
  | question => "?"
  | minus => "-"
  | eq => "=="
  | ne => "!="
  | lt => "<"
  | le => "<="
  | gt => ">"
  | ge => ">="
  | leftParen => "("
  | rightParen => ")"
  | leftBracket => "["
  | rightBracket => "]"
  | finish => "end of filter"

/-- A token with the offset of its first octet. -/
structure Lexeme where
  token : Token
  position : Nat
  deriving DecidableEq, Repr, Inhabited

/-! ## Faults -/

/-- Why a text is no filter. -/
inductive Fault where
  | assignment
  | loneBang
  | unexpectedChar (c : Char)
  | invalidEscape
  | invalidUnicodeEscape (digits : String)
  | unterminatedString
  | unexpectedToken (t : Token)
  | unexpectedAfterDot (t : Token)
  | unsupportedIndex (t : Token)
  | numberAfterMinus
  | nonIntegralIndex (n : Binary64)
  | expectedToken (wanted found : Token)
  | unknownFunction (name : String) (arity : Nat)
  deriving DecidableEq, Repr

/-- The wording of a fault. -/
def Fault.message : Fault → String
  | assignment => "assignment is not supported, expected '=='"
  | loneBang => "expected '!='; use 'not' for negation"
  | unexpectedChar c => "unexpected character: '" ++ String.singleton c ++ "'"
  | invalidEscape => "invalid escape sequence"
  | invalidUnicodeEscape digits => "invalid unicode escape '\\u" ++ digits ++ "'"
  | unterminatedString => "unterminated string"
  | unexpectedToken t => "unexpected token: " ++ t.display
  | unexpectedAfterDot t => "unexpected token after '.': " ++ t.display
  | unsupportedIndex t =>
    "unsupported index: " ++ t.display ++ " (expected an integer or a string)"
  | numberAfterMinus => "expected a number after '-'"
  | nonIntegralIndex n => "index must be an integer, got " ++ n.plainText
  | expectedToken wanted found => "expected " ++ wanted.display ++ ", found " ++ found.display
  | unknownFunction name arity => "unknown function: " ++ name ++ "/" ++ toString arity

/-- A fault and the octet offset at which it shows. -/
structure SyntaxError where
  fault : Fault
  position : Nat
  deriving DecidableEq, Repr

namespace SyntaxError

/-- What is wrong. -/
def message (e : SyntaxError) : String := e.fault.message

/-- What is wrong, and where, when only tokens were asked for. -/
def lexDisplay (e : SyntaxError) : String :=
  "lex error at position " ++ toString e.position ++ ": " ++ e.message

/-- What is wrong, and where. -/
def display (e : SyntaxError) : String :=
  "parse error at position " ++ toString e.position ++ ": " ++ e.message

end SyntaxError

/-! ## One token -/

/-- The number of octets of a text. -/
def octets : List Char → Nat
  | [] => 0
  | c :: cs => c.utf8Size + octets cs

/-- The characters of words. -/
def isWordChar (c : Char) : Bool := c.isAlphanum || c == '_'

/-- The characters at which a word may start. -/
def isWordStart (c : Char) : Bool := c.isAlpha || c == '_'

/-- The hexadecimal digits, in both cases. -/
def isHexDigit (c : Char) : Bool :=
  c.isDigit || ('a' ≤ c && c ≤ 'f') || ('A' ≤ c && c ≤ 'F')

/-- The value of a run of hexadecimal digits. -/
def hexValue (cs : List Char) : Nat :=
  cs.foldl (fun n c => 16 * n +
    (if c.isDigit then c.toNat - 48 else if 'a' ≤ c then c.toNat - 87 else c.toNat - 55)) 0

/-- What a fault inside a token is, and how many octets were left where it shows. -/
abbrev Remaining := Fault × Nat

/-- The characters of a string after its opening quote, up to the closing one. An
unterminated string is reported at its start, a bad escape at its backslash. -/
def readString (atStart : Nat) : List Char → Except Remaining (List Char × List Char)
  | [] => .error (.unterminatedString, atStart)
  | '"' :: rest => .ok ([], rest)
  | '\\' :: 'u' :: rest =>
    let digits := (rest.take 4).takeWhile isHexDigit
    let n := hexValue digits
    if digits.length = 4 ∧ n.isValidChar then
      (readString atStart (rest.drop 4)).map fun (cs, rest) => (Char.ofNat n :: cs, rest)
    else .error (.invalidUnicodeEscape (String.ofList digits), octets ('\\' :: 'u' :: rest))
  | '\\' :: c :: rest =>
    let go (c : Char) := (readString atStart rest).map fun (cs, rest) => (c :: cs, rest)
    match c with
    | '"' => go '"'
    | '\\' => go '\\'
    | '/' => go '/'
    | 'n' => go '\n'
    | 't' => go '\t'
    | 'r' => go '\r'
    | _ => .error (.invalidEscape, octets ('\\' :: c :: rest))
  | c :: rest =>
    if c = '\\' then .error (.invalidEscape, octets (c :: rest))
    else (readString atStart rest).map fun (cs, rest) => (c :: cs, rest)
termination_by cs => cs.length
decreasing_by all_goals simp_all; try omega

/-- A number: digits, and a point with digits after it; a point that no digit follows is
not part of it. -/
def readNumber (cs : List Char) : Token × List Char :=
  let whole := cs.takeWhile Char.isDigit
  let rest := cs.dropWhile Char.isDigit
  match rest with
  | '.' :: d :: rest' =>
    if d.isDigit then
      let places := (d :: rest').takeWhile Char.isDigit
      (.number (.ofDecimal false ⟨digitsValue (whole ++ places), -places.length⟩),
        (d :: rest').dropWhile Char.isDigit)
    else (.number (.ofDecimal false ⟨digitsValue whole, 0⟩), rest)
  | _ => (.number (.ofDecimal false ⟨digitsValue whole, 0⟩), rest)

/-- The token of a bare word. -/
def wordToken (word : List Char) : Token :=
  match String.ofList word with
  | "null" => .null
  | "true" => .bool true
  | "false" => .bool false
  | name => .identifier name

/-- The token at the start of a text that does not start with white space. -/
def readToken : List Char → Except Remaining (Token × List Char)
  | [] => .ok (.finish, [])
  | '.' :: rest =>
    match rest with
    | c :: _ =>
      if isWordStart c then
        .ok (.field (String.ofList (rest.takeWhile isWordChar)), rest.dropWhile isWordChar)
      else .ok (.dot, rest)
    | [] => .ok (.dot, rest)
  | '|' :: rest => .ok (.pipe, rest)
  | ',' :: rest => .ok (.comma, rest)
  | ';' :: rest => .ok (.semicolon, rest)
  | '?' :: rest => .ok (.question, rest)
  | '-' :: rest => .ok (.minus, rest)
  | '(' :: rest => .ok (.leftParen, rest)
  | ')' :: rest => .ok (.rightParen, rest)
  | '[' :: rest => .ok (.leftBracket, rest)
  | ']' :: rest => .ok (.rightBracket, rest)
  | '=' :: '=' :: rest => .ok (.eq, rest)
  | '!' :: '=' :: rest => .ok (.ne, rest)
  | '<' :: '=' :: rest => .ok (.le, rest)
  | '<' :: rest => .ok (.lt, rest)
  | '>' :: '=' :: rest => .ok (.ge, rest)
  | '>' :: rest => .ok (.gt, rest)
  | '"' :: rest =>
    (readString (octets ('"' :: rest)) rest).map fun (s, rest) => (.string (String.ofList s), rest)
  | c :: rest =>
    let cs := c :: rest
    if c = '=' then .error (.assignment, octets cs)
    else if c = '!' then .error (.loneBang, octets cs)
    else if c.isDigit then .ok (readNumber cs)
    else if isWordStart c then .ok (wordToken (cs.takeWhile isWordChar), cs.dropWhile isWordChar)
    else .error (.unexpectedChar c, octets cs)

/-! ## All tokens -/

/-- The tokens of what is left of a text of `total` octets. The end is placed where the
token before it starts. Every step takes a character, so `fuel` is their number. -/
def tokenizeFrom (total : Nat) : Nat → Nat → List Char → Except SyntaxError (List Lexeme)
  | 0, last, _ => .ok [⟨.finish, last⟩]
  | fuel + 1, last, cs =>
    match cs.dropWhile isBlank with
    | [] => .ok [⟨.finish, last⟩]
    | cs =>
      match readToken cs with
      | .error (fault, left) => .error ⟨fault, total - left⟩
      | .ok (token, rest) =>
        let start := total - octets cs
        (tokenizeFrom total fuel start rest).map (⟨token, start⟩ :: ·)

/-- The tokens of a text. -/
def tokenize (s : String) : Except SyntaxError (List Lexeme) :=
  tokenizeFrom (octets s.toList) s.length 0 s.toList

end Distill.Filter
