import Distill.Filter.Expr

/-!
# Reading filter expressions

Precedence from lowest to highest: `|`, which groups to the right; `,`, `or` and `and`,
which group to the left; the comparisons, which do not group; selectors and `?` after an
expression. Parentheses, brackets and arguments hold a whole pipe.

## Main definitions

* `Filter.Rank` — the levels of precedence.
* `Filter.Expr.parse` — the expression a text denotes, or the first fault.
-/

namespace Distill.Filter

/-- The levels of precedence, lowest first. -/
inductive Rank where
  | pipe | comma | or | and | comparison | suffix
  deriving DecidableEq, Repr, Inhabited

namespace Rank

/-- The next higher level. -/
def next : Rank → Rank
  | pipe => comma
  | comma => or
  | or => and
  | and => comparison
  | comparison | suffix => suffix

/-- What a token joins at a level whose operators group to the left. -/
def joins? : Rank → Token → Option (Expr → Expr → Expr)
  | comma, .comma => some .comma
  | or, .identifier "or" => some .or
  | and, .identifier "and" => some .and
  | _, _ => none

end Rank

/-- The comparison a token stands for. -/
def Comparison.ofToken? : Token → Option Comparison
  | .eq => some .eq
  | .ne => some .ne
  | .lt => some .lt
  | .le => some .le
  | .gt => some .gt
  | .ge => some .ge
  | _ => none

/-- The lexemes not read yet. -/
abbrev Input := List Lexeme

namespace Input

/-- The next token. -/
def peek (ts : Input) : Token := (ts.head?.map Lexeme.token).getD .finish

/-- A fault that shows at the next token. -/
def fail {α : Type} (ts : Input) (fault : Fault) : Except SyntaxError α :=
  .error ⟨fault, (ts.head?.map Lexeme.position).getD 0⟩

/-- What follows a token that must come next. -/
def expect (ts : Input) (wanted : Token) : Except SyntaxError Input :=
  if ts.peek = wanted then .ok ts.tail else ts.fail (.expectedToken wanted ts.peek)

end Input

/-- An integral number of fewer than 64 bits as a place. -/
def readPlace (n : Binary64) (ts : Input) : Except SyntaxError Int :=
  match n with
  | .finite x =>
    if x.isIntegral ∧ x.magnitude < Nat.pow 2 63 * Double.unitsPerOne then .ok x.truncate
    else ts.fail (.nonIntegralIndex n)
  | n => ts.fail (.nonIntegralIndex n)

/-- What stands in brackets after an opening one: nothing, a place or a key. -/
def readBracket (ts : Input) : Except SyntaxError (Expr × Input) :=
  match ts.peek with
  | .rightBracket => .ok (.iterate, ts.tail)
  | .string key => do
    let rest ← Input.expect ts.tail .rightBracket
    return (.field key, rest)
  | .number n => do
    let i ← readPlace n ts.tail
    let rest ← Input.expect ts.tail .rightBracket
    return (.index i, rest)
  | .minus =>
    match Input.peek ts.tail with
    | .number n => do
      let i ← readPlace n ts.tail.tail
      let rest ← Input.expect ts.tail.tail .rightBracket
      return (.index (-i), rest)
    | _ => Input.fail ts.tail .numberAfterMinus
  | t => ts.fail (.unsupportedIndex t)

/-- What stands after a dot: a key in quotes or brackets. -/
def readDotSuffix (ts : Input) : Except SyntaxError (Expr × Input) :=
  match ts.peek with
  | .string name => .ok (.field name, ts.tail)
  | .leftBracket => readBracket ts.tail
  | t => ts.fail (.unexpectedAfterDot t)

/-- The function of a name applied to arguments. -/
def resolve (name : String) (args : List Expr) (rest : Input) :
    Except SyntaxError (Expr × Input) :=
  match Expr.call? name args with
  | some e => .ok (e, rest)
  | none => rest.fail (.unknownFunction name args.length)

/-- Whether a dot goes on with a key in quotes or brackets. -/
def opensDotSuffix : Token → Bool
  | .string _ | .leftBracket => true
  | _ => false

mutual

/-- An expression of a level of precedence. -/
def parseAt : Nat → Rank → Input → Except SyntaxError (Expr × Input)
  | 0, _, ts => ts.fail (.unexpectedToken ts.peek)
  | fuel + 1, rank, ts =>
    match rank with
    | .suffix => do
      let (e, rest) ← parsePrimary fuel ts
      parseSuffixes fuel e rest
    | .comparison => do
      let (left, rest) ← parseAt fuel .suffix ts
      match Comparison.ofToken? rest.peek with
      | none => return (left, rest)
      | some op => do
        let (right, rest) ← parseAt fuel .suffix rest.tail
        return (.compare op left right, rest)
    | .pipe => do
      let (left, rest) ← parseAt fuel .comma ts
      if rest.peek = .pipe then do
        let (right, rest) ← parseAt fuel .pipe rest.tail
        return (.pipe left right, rest)
      else return (left, rest)
    | rank => do
      let (left, rest) ← parseAt fuel rank.next ts
      parseJoined fuel rank left rest

/-- What follows the first operand of a level whose operators group to the left. -/
def parseJoined : Nat → Rank → Expr → Input → Except SyntaxError (Expr × Input)
  | 0, _, _, ts => ts.fail (.unexpectedToken ts.peek)
  | fuel + 1, rank, left, ts =>
    match rank.joins? ts.peek with
    | none => .ok (left, ts)
    | some join => do
      let (right, rest) ← parseAt fuel rank.next ts.tail
      parseJoined fuel rank (join left right) rest

/-- The selectors and question marks after an expression. -/
def parseSuffixes : Nat → Expr → Input → Except SyntaxError (Expr × Input)
  | 0, _, ts => ts.fail (.unexpectedToken ts.peek)
  | fuel + 1, e, ts =>
    match ts.peek with
    | .field name => parseSuffixes fuel (e.pipeInto (.field name)) ts.tail
    | .dot =>
      if opensDotSuffix (Input.peek ts.tail) then do
        let (suffix, rest) ← readDotSuffix ts.tail
        parseSuffixes fuel (e.pipeInto suffix) rest
      else .ok (e, ts)
    | .leftBracket => do
      let (suffix, rest) ← readBracket ts.tail
      parseSuffixes fuel (e.pipeInto suffix) rest
    | .question => parseSuffixes fuel (.attempt e) ts.tail
    | _ => .ok (e, ts)

/-- An expression that no operator joins. -/
def parsePrimary : Nat → Input → Except SyntaxError (Expr × Input)
  | 0, ts => ts.fail (.unexpectedToken ts.peek)
  | fuel + 1, ts =>
    match ts.peek with
    | .dot =>
      if opensDotSuffix (Input.peek ts.tail) then readDotSuffix ts.tail
      else .ok (.identity, ts.tail)
    | .field name => .ok (.field name, ts.tail)
    | .null => .ok (.literal .null, ts.tail)
    | .bool b => .ok (.literal (.bool b), ts.tail)
    | .number n => .ok (.literal (literalNumber n), ts.tail)
    | .minus =>
      match Input.peek ts.tail with
      | .number (.finite x) => .ok (.literal (literalNumber (.finite x.negate)), ts.tail.tail)
      | .number n => .ok (.literal (literalNumber n), ts.tail.tail)
      | _ => Input.fail ts.tail .numberAfterMinus
    | .string s => .ok (.literal (.string s), ts.tail)
    | .leftParen => do
      let (e, rest) ← parseAt fuel .pipe ts.tail
      let rest ← rest.expect .rightParen
      return (e, rest)
    | .leftBracket =>
      if Input.peek ts.tail = .rightBracket then .ok (.literal (.array []), ts.tail.tail)
      else do
        let (e, rest) ← parseAt fuel .pipe ts.tail
        let rest ← rest.expect .rightBracket
        return (.collect e, rest)
    | .identifier name =>
      if Input.peek ts.tail = .leftParen then do
        let (args, rest) ← parseArgs fuel ts.tail.tail
        let rest ← rest.expect .rightParen
        resolve name args rest
      else resolve name [] ts.tail
    | t => ts.fail (.unexpectedToken t)

/-- Arguments separated by semicolons; at least one. -/
def parseArgs : Nat → Input → Except SyntaxError (List Expr × Input)
  | 0, ts => ts.fail (.unexpectedToken ts.peek)
  | fuel + 1, ts => do
    let (arg, rest) ← parseAt fuel .pipe ts
    if rest.peek = .semicolon then do
      let (args, rest) ← parseArgs fuel rest.tail
      return (arg :: args, rest)
    else return ([arg], rest)

end

/-- How deep the calls go at most: nine between one token and the next. -/
def parseFuel (ts : Input) : Nat := 10 * (ts.length + 1)

/-- The expression that lexemes denote. -/
def Expr.ofLexemes (ts : Input) : Except SyntaxError Expr := do
  let (e, rest) ← parseAt (parseFuel ts) .pipe ts
  if rest.peek = .finish then return e else rest.fail (.unexpectedToken rest.peek)

/-- The expression a text denotes. -/
def Expr.parse (s : String) : Except SyntaxError Expr := do
  let ts ← tokenize s
  Expr.ofLexemes ts

end Distill.Filter
