import Distill.Shell.Script

/-!
# Arithmetic of shells

Integers have 64 bits and wrap around.

## Main definitions

* `Shell.Arithmetic.Expr` — expressions.
* `Shell.Arithmetic.parse` — the expression of a text.
* `Shell.Arithmetic.Expr.eval` — its value, with the variables that it changes.
-/

namespace Distill.Shell.Arithmetic

/-- Operators with two operands. -/
inductive Operator where
  | power | times | divide | remainder | plus | minus | shiftLeft | shiftRight
  | less | lessEq | greater | greaterEq | equal | unequal | bitAnd | bitXor | bitOr
  deriving DecidableEq, Repr, Inhabited

/-- An expression. -/
inductive Expr where
  | number (n : Int)
  | parameter (name : String)
  | negate (a : Expr)
  | complement (a : Expr)
  | not (a : Expr)
  | binary (op : Operator) (a b : Expr)
  | both (a b : Expr)
  | either (a b : Expr)
  | choice (a b c : Expr)
  /-- A variable takes a value, or the result of an operation on its own. -/
  | assign (name : String) (op : Option Operator) (a : Expr)
  /-- A variable changes by a number; the value is the one before. -/
  | step (name : String) (amount : Int)
  | comma (a b : Expr)
  deriving Repr, Inhabited

/-- Why an expression has no value. -/
inductive Error where
  /-- Where an operand should be there is another text. -/
  | primary (rest : String)
  /-- Behind the expression there is another text. -/
  | trailing (rest : String)
  | divisionByZero
  /-- Digits that its base does not have. -/
  | badDigits (text : String)
  /-- A variable holds no number. -/
  | illegalNumber (text : String)
  deriving DecidableEq, Repr

/-- The integer of 64 bits that an integer wraps around to. -/
def wrap (n : Int) : Int := Int.bmod n (Nat.pow 2 64)

/-- A power, wrapped around at each step. -/
def wrapPower (a : Int) (n : Nat) : Int :=
  if n = 0 then 1
  else
    let half := wrapPower (wrap (a * a)) (n / 2)
    if n % 2 = 1 then wrap (a * half) else half

/-! ## Reading -/

/-- Whether a character is a blank. -/
def isSpace (c : Char) : Bool := c = ' ' || c = '\t' || c = '\n'

/-- Operators with two operands, how strongly they bind, and their texts; the longer texts
first. -/
def binaryOperators : List (String × Nat × Operator) :=
  [("**", 12, .power), ("<<", 9, .shiftLeft), (">>", 9, .shiftRight), ("<=", 8, .lessEq),
    (">=", 8, .greaterEq), ("==", 7, .equal), ("!=", 7, .unequal), ("*", 11, .times),
    ("/", 11, .divide), ("%", 11, .remainder), ("+", 10, .plus), ("-", 10, .minus),
    ("<", 8, .less), (">", 8, .greater), ("&", 6, .bitAnd), ("^", 5, .bitXor), ("|", 4, .bitOr)]

/-- Operators that assign. -/
def assignOperators : List (String × Option Operator) :=
  [("<<=", some .shiftLeft), (">>=", some .shiftRight), ("+=", some .plus), ("-=", some .minus),
    ("*=", some .times), ("/=", some .divide), ("%=", some .remainder), ("&=", some .bitAnd),
    ("^=", some .bitXor), ("|=", some .bitOr), ("=", none)]

/-- The rest behind a text at its start. -/
def dropText (s : String) (cs : List Char) : Option (List Char) :=
  if s.toList.isPrefixOf cs then some (cs.drop s.length) else none

/-- The number of digits of a base. -/
def ofDigits (base : Nat) (digits : List Char) : Nat :=
  digits.foldl (fun n c =>
    let d := if c.isDigit then c.toNat - 48 else if c.isLower then c.toNat - 87 else c.toNat - 55
    n * base + d) 0

/-- The number at the start of a text. -/
def readNumber (cs : List Char) : Option (Nat × List Char) :=
  let digits := cs.takeWhile Char.isAlphanum
  let rest := cs.drop digits.length
  match digits with
  | '0' :: x :: hex =>
    if x = 'x' ∨ x = 'X' then
      if !hex.isEmpty && hex.all fun c => c.isDigit || ('a' ≤ c.toLower && c.toLower ≤ 'f') then
        some (ofDigits 16 hex, rest)
      else none
    else if (x :: hex).all fun c => '0' ≤ c && c ≤ '7' then some (ofDigits 8 (x :: hex), rest)
    else none
  | c :: _ => if c.isDigit && digits.all Char.isDigit then some (ofDigits 10 digits, rest) else none
  | [] => none

mutual

/-- Read operands joined by commas. -/
def readComma : Nat → List Char → Except Error (Expr × List Char)
  | 0, cs => .error (.primary (String.ofList cs))
  | n + 1, cs => do
    let (a, cs) ← readAssign n cs
    match cs.dropWhile isSpace with
    | ',' :: rest => do
      let (b, rest) ← readComma n rest
      return (.comma a b, rest)
    | rest => return (a, rest)

/-- Read an assignment or a choice. -/
def readAssign : Nat → List Char → Except Error (Expr × List Char)
  | 0, cs => .error (.primary (String.ofList cs))
  | n + 1, cs => do
    let (a, cs) ← readChoice n cs
    let rest := cs.dropWhile isSpace
    match a with
    | .parameter name =>
      match assignOperators.findSome? fun (text, op) => (dropText text rest).map (op, ·) with
      | some (op, after) =>
        if op.isNone && after.head? = some '=' then return (a, rest)
        let (b, after) ← readAssign n after
        return (.assign name op b, after)
      | none => return (a, rest)
    | _ => return (a, rest)

/-- Read a choice between two values. -/
def readChoice : Nat → List Char → Except Error (Expr × List Char)
  | 0, cs => .error (.primary (String.ofList cs))
  | n + 1, cs => do
    let (a, cs) ← readEither n cs
    match cs.dropWhile isSpace with
    | '?' :: rest => do
      let (b, rest) ← readAssign n rest
      match rest.dropWhile isSpace with
      | ':' :: rest => do
        let (c, rest) ← readChoice n rest
        return (.choice a b c, rest)
      | rest => .error (.trailing (String.ofList rest))
    | rest => return (a, rest)

/-- Read conditions of which one has to hold. -/
def readEither : Nat → List Char → Except Error (Expr × List Char)
  | 0, cs => .error (.primary (String.ofList cs))
  | n + 1, cs => do
    let (a, cs) ← readBoth n cs
    match dropText "||" (cs.dropWhile isSpace) with
    | some rest => do
      let (b, rest) ← readEither n rest
      return (.either a b, rest)
    | none => return (a, cs)

/-- Read conditions that all have to hold. -/
def readBoth : Nat → List Char → Except Error (Expr × List Char)
  | 0, cs => .error (.primary (String.ofList cs))
  | n + 1, cs => do
    let (a, cs) ← readUnary n cs
    let (a, cs) ← readBinary n 0 a cs
    match dropText "&&" (cs.dropWhile isSpace) with
    | some rest => do
      let (b, rest) ← readBoth n rest
      return (.both a b, rest)
    | none => return (a, cs)

/-- Read operators that bind at least so strongly behind an operand. -/
def readBinary : Nat → Nat → Expr → List Char → Except Error (Expr × List Char)
  | 0, _, _, cs => .error (.primary (String.ofList cs))
  | n + 1, level, a, cs => do
    let rest := cs.dropWhile isSpace
    let joins := (dropText "&&" rest).isSome || (dropText "||" rest).isSome
    let assigns := (assignOperators.any fun (text, op) => op.isSome && (dropText text rest).isSome)
    match binaryOperators.findSome? fun (text, l, op) => (dropText text rest).map (l, op, ·) with
    | some (l, op, after) =>
      if joins || assigns || l < level then return (a, rest)
      let (b, after) ← readUnary n after
      let (b, after) ← readBinary n (if op = .power then l else l + 1) b after
      readBinary n level (.binary op a b) after
    | none => return (a, rest)

/-- Read an operand. -/
def readUnary : Nat → List Char → Except Error (Expr × List Char)
  | 0, cs => .error (.primary (String.ofList cs))
  | n + 1, cs => do
    match cs.dropWhile isSpace with
    | '+' :: '+' :: rest => do
      match ← readUnary n rest with
      | (.parameter name, rest) => return (.assign name (some .plus) (.number 1), rest)
      | r => return r
    | '-' :: '-' :: rest => do
      match ← readUnary n rest with
      | (.parameter name, rest) => return (.assign name (some .minus) (.number 1), rest)
      | r => return r
    | '-' :: rest => do
      let (a, rest) ← readUnary n rest
      return (.negate a, rest)
    | '+' :: rest => readUnary n rest
    | '!' :: rest => do
      let (a, rest) ← readUnary n rest
      return (.not a, rest)
    | '~' :: rest => do
      let (a, rest) ← readUnary n rest
      return (.complement a, rest)
    | '(' :: rest => do
      let (a, rest) ← readComma n rest
      match rest.dropWhile isSpace with
      | ')' :: rest => return (a, rest)
      | rest => .error (.trailing (String.ofList rest))
    | cs =>
      match readNumber cs with
      | some (k, rest) => return (.number (wrap k), rest)
      | none =>
        let name := cs.takeWhile fun c => c.isAlphanum || c = '_'
        let rest := cs.drop name.length
        if name.head?.any Char.isDigit then .error (.badDigits (String.ofList name))
        else if !(name.head?.any fun c => c.isAlpha || c = '_') then
        .error (.primary (String.ofList cs))
        else
          let name := String.ofList name
          match rest with
          | '+' :: '+' :: rest => return (.step name 1, rest)
          | '-' :: '-' :: rest => return (.step name (-1), rest)
          | _ => return (.parameter name, rest)

end

/-- The text from a power on, which not all shells know. -/
def fromPower : List Char → Option (List Char)
  | [] => none
  | '*' :: '*' :: rest => some ('*' :: rest)
  | _ :: rest => fromPower rest

/-- The expression of a text; nothing at all is zero. -/
def parse (d : Dialect) (s : String) : Except Error Expr :=
  let cs := s.toList
  if d = .standard && (fromPower cs).isSome then .error (.primary s)
  else if cs.all isSpace then .ok (.number 0)
  else do
    let (e, rest) ← readComma (16 * (cs.length + 1)) cs
    if rest.all isSpace then return e else .error (.trailing (String.ofList rest))

/-! ## Values -/

/-- The truth of a condition as a number. -/
def ofBool (b : Bool) : Int := if b then 1 else 0

/-- The result of an operation. -/
def Operator.apply (op : Operator) (a b : Int) : Except Error Int :=
  match op with
  | power => .ok (wrapPower a b.toNat)
  | times => .ok (wrap (a * b))
  | divide => if b = 0 then .error .divisionByZero else .ok (wrap (Int.tdiv a b))
  | remainder => if b = 0 then .error .divisionByZero else .ok (wrap (Int.tmod a b))
  | plus => .ok (wrap (a + b))
  | minus => .ok (wrap (a - b))
  | shiftLeft => .ok (wrap (a * Nat.pow 2 (b % 64).toNat))
  | shiftRight => .ok (a / Nat.pow 2 (b % 64).toNat)
  | less => .ok (ofBool (a < b))
  | lessEq => .ok (ofBool (a ≤ b))
  | greater => .ok (ofBool (b < a))
  | greaterEq => .ok (ofBool (b ≤ a))
  | equal => .ok (ofBool (a = b))
  | unequal => .ok (ofBool (a ≠ b))
  | bitAnd => .ok ((BitVec.ofInt 64 a &&& BitVec.ofInt 64 b).toInt)
  | bitXor => .ok ((BitVec.ofInt 64 a ^^^ BitVec.ofInt 64 b).toInt)
  | bitOr => .ok ((BitVec.ofInt 64 a ||| BitVec.ofInt 64 b).toInt)

/-- The number that the text of a variable is. -/
def numberOf (text : String) : Except Error Int :=
  let cs := text.toList.dropWhile isSpace
  let (negative, digits) := match cs with
    | '-' :: rest => (true, rest)
    | '+' :: rest => (false, rest)
    | _ => (false, cs)
  if cs.isEmpty then .ok 0
  else
    match readNumber digits with
    | some (n, rest) =>
      if rest.all isSpace then .ok (wrap (if negative then -(n : Int) else n))
      else .error (.illegalNumber text)
    | none => .error (.illegalNumber text)

/-- The variables with their texts, the latest first. -/
abbrev Bindings := List (String × String)

/-- The number of a variable. -/
def look (lookup : String → String) (b : Bindings) (name : String) : Except Error Int :=
  numberOf ((b.lookup name).getD (lookup name))

/-- The value of an expression, with the variables that it changes. -/
def Expr.eval (lookup : String → String) (b : Bindings) : Expr → Except Error (Int × Bindings)
  | number n => .ok (n, b)
  | parameter name => do return (← look lookup b name, b)
  | negate a => do
    let (x, b) ← a.eval lookup b
    return (wrap (-x), b)
  | complement a => do
    let (x, b) ← a.eval lookup b
    return (-x - 1, b)
  | not a => do
    let (x, b) ← a.eval lookup b
    return (ofBool (x = 0), b)
  | binary op p q => do
    let (x, b) ← p.eval lookup b
    let (y, b) ← q.eval lookup b
    return (← op.apply x y, b)
  | both p q => do
    let (x, b) ← p.eval lookup b
    if x = 0 then return (0, b)
    let (y, b) ← q.eval lookup b
    return (ofBool (y ≠ 0), b)
  | either p q => do
    let (x, b) ← p.eval lookup b
    if x ≠ 0 then return (1, b)
    let (y, b) ← q.eval lookup b
    return (ofBool (y ≠ 0), b)
  | choice p q r => do
    let (x, b) ← p.eval lookup b
    if x ≠ 0 then q.eval lookup b else r.eval lookup b
  | assign name op a => do
    let (y, b) ← a.eval lookup b
    let value ← match op with
      | none => pure y
      | some op => op.apply (← look lookup b name) y
    return (value, (name, toString value) :: b)
  | step name amount => do
    let x ← look lookup b name
    return (x, (name, toString (wrap (x + amount))) :: b)
  | comma p q => do
    let (_, b) ← p.eval lookup b
    q.eval lookup b

end Distill.Shell.Arithmetic
