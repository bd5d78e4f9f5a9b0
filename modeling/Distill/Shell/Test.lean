import Distill.Pattern.Reader
import Distill.Shell.Glob
import Distill.Shell.State

/-!
# Tests

Conditions of `test` and `[`, and those between double brackets, where the right side of
an equation may be a pattern.

## Main definitions

* `Shell.Test.evaluate` — whether a condition holds.
-/

namespace Distill.Shell.Test

/-- Why a condition has no truth value. -/
inductive Error where
  | illegalNumber (text : String)
  /-- No operator stands where one should: what is there, behind which operand, and how
  many operands there are. -/
  | operatorExpected (text before : String) (count : Nat)
  | argumentExpected
  | closingExpected
  deriving DecidableEq, Repr

/-- The wording of an error. -/
def Error.message (d : Dialect) : Error → String
  | illegalNumber text =>
    if d = .bash then text ++ ": integer expression expected" else "Illegal number: " ++ text
  | operatorExpected text before count =>
    if d = .standard then before ++ ": unexpected operator"
    else if count = 2 then before ++ ": unary operator expected"
    else if count = 3 then text ++ ": binary operator expected"
    else "too many arguments"
  | argumentExpected => "argument expected"
  | closingExpected => if d = .bash then "missing \x60]'" else "missing ]"

/-- The integer that a text is. -/
def number (s : String) : Except Error Int :=
  let t := s.trimAscii.toString
  let (negative, digits) :=
    if t.startsWith "-" then (true, (t.drop 1).toString)
    else if t.startsWith "+" then (false, (t.drop 1).toString)
    else (false, t)
  if !digits.isEmpty && digits.toList.all Char.isDigit then
    match digits.toNat? with
    | some n => .ok (if negative then -(n : Int) else n)
    | none => .error (.illegalNumber s)
  else .error (.illegalNumber s)

/-- Operators with one operand. -/
def unaryOperators : List String :=
  ["-n", "-z", "-f", "-d", "-e", "-s", "-r", "-w", "-x", "-L", "-h", "-v", "-b", "-c", "-p", "-S",
    "-t", "-u", "-g", "-k", "-O", "-G"]

/-- Operators with two operands. -/
def binaryOperators : List String :=
  ["=", "==", "!=", "<", ">", "-eq", "-ne", "-lt", "-le", "-gt", "-ge", "-nt", "-ot", "-ef", "=~"]

/-- Whether a condition on one operand holds. -/
def unary (s : State) (op operand : String) : Bool :=
  let entry := s.entry? operand
  let isFile := match entry with
    | some (.file _) => true
    | _ => false
  let isDirectory := match entry with
    | some (.directory _) => true
    | _ => operand = "/"
  match op with
  | "-n" => operand ≠ ""
  | "-z" => operand = ""
  | "-f" => isFile
  | "-d" => isDirectory
  | "-e" | "-r" | "-w" | "-O" | "-G" => entry.isSome || operand = nullPath || operand = "/"
  | "-x" => isDirectory
  | "-c" => operand = nullPath
  | "-s" =>
    match entry with
    | some (.file content) => !content.isEmpty
    | some (.directory _) => true
    | _ => false
  | "-L" | "-h" =>
    match s.files.entry? (s.absolute operand) with
    | some (.link _) => true
    | _ => false
  | "-v" => (s.bindings.lookup operand).isSome
  | _ => false

/-- Whether a condition on two operands holds. -/
def binary (s : State) (op : String) (a b : Field) : Except Error Bool := do
  let (x, y) := (a.text, b.text)
  let compare (p : Int → Int → Bool) : Except Error Bool := do return p (← number x) (← number y)
  match op with
  | "=" | "==" => return Glob.accepts (Glob.ofField b) x.toList
  | "!=" => return !Glob.accepts (Glob.ofField b) x.toList
  | "<" => return x < y
  | ">" => return y < x
  | "-eq" => compare (· == ·)
  | "-ne" => compare (· != ·)
  | "-lt" => compare (· < ·)
  | "-le" => compare (· ≤ ·)
  | "-gt" => compare (fun m n => n < m)
  | "-ge" => compare (fun m n => n ≤ m)
  | "=~" => return (Pattern.parse? y).any (·.isMatch x)
  | "-ef" =>
    let there := (s.resolve x).toOption
    return there.isSome && there == (s.resolve y).toOption
  | _ => return false

mutual

/-- Evaluate conditions of which one has to hold. -/
def either (s : State) : Nat → List Field → Except Error (Bool × List Field)
  | 0, fs => .ok (false, fs)
  | n + 1, fs => do
    let (a, fs) ← both s n fs
    match fs with
    | op :: rest =>
      if op.text = "-o" || op.text = "||" then
        let (b, rest) ← either s n rest
        return (a || b, rest)
      else return (a, fs)
    | [] => return (a, fs)

/-- Evaluate conditions that all have to hold. -/
def both (s : State) : Nat → List Field → Except Error (Bool × List Field)
  | 0, fs => .ok (false, fs)
  | n + 1, fs => do
    let (a, fs) ← single s n fs
    match fs with
    | op :: rest =>
      if op.text = "-a" || op.text = "&&" then
        let (b, rest) ← both s n rest
        return (a && b, rest)
      else return (a, fs)
    | [] => return (a, fs)

/-- Evaluate one condition. -/
def single (s : State) : Nat → List Field → Except Error (Bool × List Field)
  | 0, fs => .ok (false, fs)
  | n + 1, fs =>
    match fs with
    | [] => .error .argumentExpected
    | [a] => .ok (a.text ≠ "", [])
    | a :: op :: rest =>
      match rest with
      | b :: after =>
        if binaryOperators.contains op.text then do return (← binary s op.text a b, after)
        else compound s n a op rest
      | [] => compound s n a op rest

/-- Evaluate a condition that does not start with an operand of two. -/
def compound (s : State) : Nat → Field → Field → List Field → Except Error (Bool × List Field)
  | 0, _, _, fs => .ok (false, fs)
  | n + 1, a, b, rest =>
    if a.text = "!" then do
      let (r, rest) ← single s n (b :: rest)
      return (!r, rest)
    else if a.text = "(" then do
      let (r, rest) ← either s n (b :: rest)
      match rest with
      | close :: rest =>
        if close.text = ")" then return (r, rest) else throw .argumentExpected
      | [] => throw .argumentExpected
    else if unaryOperators.contains a.text then .ok (unary s a.text b.text, rest)
    else .ok (a.text ≠ "", b :: rest)

end

/-- Whether a condition holds. Nothing at all does not. -/
def evaluate (s : State) (fs : List Field) : Except Error Bool := do
  if fs.isEmpty then return false
  match ← either s (8 * fs.length + 8) fs with
  | (r, []) => return r
  | (_, op :: rest) =>
    let before := (fs[fs.length - rest.length - 2]?).getD op
    throw (.operatorExpected op.text before.text fs.length)

/-- Evaluate a condition whose operands are not patterns. -/
def evaluateTexts (s : State) (args : List String) : Except Error Bool :=
  evaluate s (args.map fun a => a.toList.map (·, false))

/-- A condition as a command. -/
def run (name : String) (args : List String) : Running Unit := do
  let s ← get
  let result := if name = "[" then
      if args.getLast? = some "]" then evaluateTexts s args.dropLast else .error .closingExpected
    else evaluateTexts s args
  match result with
  | .ok r => finish (if r then 0 else 1)
  | .error e => complain (name ++ ": " ++ e.message s.dialect) 2

end Distill.Shell.Test
