import Distill.Shell.Escape
import Distill.Shell.State

/-!
# Formatted output

## Main definitions

* `Shell.printf` — operands written by a format, which is used again while any are left.
* `Shell.echo` — operands on a line.
-/

namespace Distill.Shell

/-- The escapes of formats. -/
def formatEscapes (d : Dialect) : EscapeRules :=
  { hexadecimal := d = .bash, quotes := d = .bash }

/-- The escapes of operands. -/
def operandEscapes (d : Dialect) : EscapeRules :=
  { octal := if d = .bash then 0 else 3, zeroOctal := 3, hexadecimal := d = .bash, stop := true }

/-- How an operand is written. -/
structure Directive where
  leftAligned : Bool := false
  plus : Bool := false
  space : Bool := false
  zero : Bool := false
  alternative : Bool := false
  width : Option Nat := none
  precision : Option Nat := none
  conversion : Char
  deriving Repr, Inhabited

/-- A part of a format. -/
inductive FormatPart where
  | text (data : Bytes)
  | operand (d : Directive)
  /-- There is no such conversion. -/
  | invalid (text : String)
  deriving Repr, Inhabited

/-- Read flags of a directive. -/
def readDirectiveFlags (d : Directive) : List Char → Directive × List Char
  | '-' :: rest => readDirectiveFlags { d with leftAligned := true } rest
  | '+' :: rest => readDirectiveFlags { d with plus := true } rest
  | ' ' :: rest => readDirectiveFlags { d with space := true } rest
  | '0' :: rest => readDirectiveFlags { d with zero := true } rest
  | '#' :: rest => readDirectiveFlags { d with alternative := true } rest
  | cs => (d, cs)

/-- Read a decimal number if there is one. -/
def readDigits? (cs : List Char) : Option Nat × List Char :=
  let digits := cs.takeWhile Char.isDigit
  (decimal? (String.ofList digits), cs.drop digits.length)

/-- The parts of a format. -/
def formatParts (rules : EscapeRules) : Nat → List Char → List FormatPart
  | 0, _ => []
  | _, [] => []
  | n + 1, '%' :: '%' :: rest => .text [37] :: formatParts rules n rest
  | n + 1, '%' :: rest =>
    let (d, rest) := readDirectiveFlags { conversion := 's' } rest
    let (width, rest) := readDigits? rest
    let (precision, rest) := match rest with
      | '.' :: rest =>
        let (p, rest) := readDigits? rest
        (some (p.getD 0), rest)
      | _ => (none, rest)
    match rest with
    | [] => [.invalid "%"]
    | c :: rest =>
      if ['s', 'b', 'c', 'd', 'i', 'u', 'x', 'X', 'o'].contains c then
        .operand { d with width, precision, conversion := c } :: formatParts rules n rest
      else [.invalid ("%" ++ c.toString)]
  | n + 1, '\\' :: c :: rest =>
    match readEscape rules c rest with
    | some (data, rest) => .text data :: formatParts rules n rest
    | none => []
  | n + 1, c :: rest => .text (charBytes c) :: formatParts rules n rest

/-- Fill data up to a width. -/
def pad (d : Directive) (data : Bytes) : Bytes :=
  let missing := List.replicate (d.width.getD 0 - data.length) (32 : UInt8)
  if d.leftAligned then data ++ missing else missing ++ data

/-- The digits of a number in a base. -/
def digitsOf (base : Nat) (upper : Bool) (n : Nat) : String :=
  let digits := String.ofList (Nat.toDigits base n)
  if upper then digits.toUpper else digits

/-- The number at the start of an operand, and whether it is all of it. -/
def operandNumber (s : String) : Int × Bool :=
  let cs := s.toList.dropWhile fun c => c = ' ' || c = '\t'
  let (negative, cs) := match cs with
    | '-' :: rest => (true, rest)
    | '+' :: rest => (false, rest)
    | _ => (false, cs)
  let (value, rest) : Nat × List Char := match cs with
    | '\'' :: c :: _ | '"' :: c :: _ => (c.toNat, [])
    | '0' :: 'x' :: rest | '0' :: 'X' :: rest => leadingDigits 16 hexDigit? rest.length 0 rest
    | '0' :: rest => leadingDigits 8 octalDigit? rest.length 0 rest
    | _ =>
      let digit? (c : Char) : Option Nat := if c.isDigit then some (c.toNat - 48) else none
      leadingDigits 10 digit? cs.length 0 cs
  (if negative then -(value : Int) else value, rest.isEmpty && !cs.isEmpty)

/-- A number written by a directive. -/
def writeNumber (d : Directive) (n : Int) : Bytes :=
  let size := n.natAbs
  let unsigned := (n % Nat.pow 2 64).toNat
  let (sign, digits) : String × String := match d.conversion with
    | 'x' => (if d.alternative && n ≠ 0 then "0x" else "", digitsOf 16 false unsigned)
    | 'X' => (if d.alternative && n ≠ 0 then "0X" else "", digitsOf 16 true unsigned)
    | 'o' => (if d.alternative then "0" else "", digitsOf 8 false unsigned)
    | 'u' => ("", toString unsigned)
    | _ =>
      (if n < 0 then "-" else if d.plus then "+" else if d.space then " " else "", toString size)
  let fill (k : Nat) : String := String.ofList (List.replicate (k - digits.length) '0')
  let digits := match d.precision with
    | some p => fill p ++ digits
    | none =>
      if d.zero && !d.leftAligned then fill (d.width.getD 0 - sign.length) ++ digits else digits
  pad d (Bytes.ofString (sign ++ digits))

/-- Write operands by the parts of a format; gives the operands that are left and whether
output goes on. -/
def writeParts (rules : EscapeRules) : List FormatPart → List String → Running (List String × Bool)
  | [], args => return (args, true)
  | .text data :: rest, args => do
    put data
    writeParts rules rest args
  | .invalid text :: _, _ => do
    if (← get).dialect = .bash then
      complain ("printf: \x60" ++ text ++ "': missing format character") 1
    else complain ("printf: " ++ text ++ ": invalid directive") 2
    return ([], false)
  | .operand d :: rest, args => do
    let arg := args.headD ""
    let cut (data : Bytes) : Bytes := (d.precision.map (data.take ·)).getD data
    match d.conversion with
    | 's' => put (pad d (cut (Bytes.ofString arg)))
    | 'c' => put (pad d ((Bytes.ofString arg).take 1))
    | 'b' => do
      let (data, goesOn) := unescape rules arg
      put (pad d (cut data))
      if !goesOn then return ([], false)
    | _ =>
      let (n, whole) := if args.isEmpty then (0, true) else operandNumber arg
      if !whole then
        let bash := (← get).dialect = .bash
        let started := arg.toList.head?.any fun c => c.isDigit || c = '-'
        let wording := if bash then "invalid number"
          else if started then "not completely converted" else "expected numeric value"
        complain ("printf: " ++ arg ++ ": " ++ wording) 1
      put (writeNumber d n)
    writeParts rules rest (args.drop 1)

/-- Whether a part of a format takes an operand. -/
def FormatPart.takesOperand : FormatPart → Bool
  | operand _ => true
  | _ => false

/-- Use a format again while operands are left. -/
def writeFormat (rules : EscapeRules) (parts : List FormatPart) : Nat → List String → Running Unit
  | 0, _ => pure ()
  | n + 1, args => do
    let (rest, goesOn) ← writeParts rules parts args
    if goesOn && !rest.isEmpty && parts.any (·.takesOperand) then writeFormat rules parts n rest

/-- Write operands by a format. -/
def printf (args : List String) : Running Unit := do
  let d := (← get).dialect
  finish 0
  let args := if args.head? = some "--" then args.drop 1 else args
  match args with
  | [] =>
    if d = .bash then grumble "printf: usage: printf [-v var] format [arguments]" 2
    else complain "printf: usage: printf format [arg ...]" 2
  | format :: args =>
    let parts := formatParts (formatEscapes d) format.length format.toList
    writeFormat (operandEscapes d) parts (args.length + 1) args

/-- Write operands on a line. -/
def echo (args : List String) : Running Unit := do
  let bash := (← get).dialect = .bash
  let isOption (s : String) : Bool :=
    if bash then s.startsWith "-" && s.length > 1 && (s.toList.drop 1).all ['n', 'e', 'E'].contains
    else s = "-n"
  let options := if bash then args.takeWhile isOption else (args.take 1).takeWhile isOption
  let letters := (options.flatMap (·.toList)).filter (· != '-')
  let escapes := !bash || (letters.filter fun c => c = 'e' || c = 'E').getLast? = some 'e'
  let text := " ".intercalate (args.drop options.length)
  let (data, goesOn) :=
    if escapes then unescape (operandEscapes (if bash then .bash else .standard)) text
    else (Bytes.ofString text, true)
  put (if goesOn && !letters.contains 'n' then data ++ [10] else data)
  finish 0

end Distill.Shell
