import Distill.Text.Bytes

/-!
# Escapes in texts

Backslashes with letters or digits stand for characters in the operands of `echo` and
`printf`.

## Main definitions

* `Shell.EscapeRules` — which escapes there are.
* `Shell.unescape` — the octets of a text with its escapes replaced.
-/

namespace Distill.Shell

/-- Which escapes there are besides those for control characters. -/
structure EscapeRules where
  /-- How many octal digits are read behind a backslash without a zero. -/
  octal : Nat := 3
  /-- How many octal digits are read behind a zero. -/
  zeroOctal : Nat := 2
  /-- Hexadecimal digits are read behind `x`. -/
  hexadecimal : Bool := false
  /-- The text ends at `c`. -/
  stop : Bool := false
  /-- Quotes may be escaped. -/
  quotes : Bool := false
  deriving Repr, Inhabited

/-- The number that a text of digits is. -/
def decimal? (s : String) : Option Nat :=
  if !s.isEmpty && s.toList.all Char.isDigit then s.toNat? else none

/-- The octets of a character. -/
def charBytes (c : Char) : Bytes := Bytes.ofString c.toString

/-- Whether a character is an octal digit. -/
def isOctalDigit (c : Char) : Bool := '0' ≤ c && c ≤ '7'

/-- The value of a hexadecimal digit. -/
def hexDigit? (c : Char) : Option Nat :=
  if c.isDigit then some (c.toNat - 48)
  else if 'a' ≤ c && c ≤ 'f' then some (c.toNat - 87)
  else if 'A' ≤ c && c ≤ 'F' then some (c.toNat - 55)
  else none

/-- Leading digits of a base, at most so many, as a number, with the rest. -/
def leadingDigits (base : Nat) (digit? : Char → Option Nat) :
    Nat → Nat → List Char → Nat × List Char
  | 0, value, cs => (value, cs)
  | _, value, [] => (value, [])
  | n + 1, value, c :: rest =>
    match digit? c with
    | some d => leadingDigits base digit? n (value * base + d) rest
    | none => (value, c :: rest)

/-- The value of an octal digit. -/
def octalDigit? (c : Char) : Option Nat := if isOctalDigit c then some (c.toNat - 48) else none

/-- The character that a letter behind a backslash stands for. -/
def controlEscape? (c : Char) : Option UInt8 :=
  match c with
  | 'a' => some 7
  | 'b' => some 8
  | 't' => some 9
  | 'n' => some 10
  | 'v' => some 11
  | 'f' => some 12
  | 'r' => some 13
  | '\\' => some 92
  | _ => none

/-- What an escape stands for, with the rest behind it; none ends the text. The escape is
given without its backslash. -/
def readEscape (rules : EscapeRules) (c : Char) (rest : List Char) : Option (Bytes × List Char) :=
  match controlEscape? c with
  | some b => some ([b], rest)
  | none =>
    if c = 'c' && rules.stop then none
    else if rules.quotes && (c = '\'' || c = '"') then some (charBytes c, rest)
    else if c = '0' && 0 < rules.zeroOctal then
      let (n, rest) := leadingDigits 8 octalDigit? rules.zeroOctal 0 rest
      some ([UInt8.ofNat n], rest)
    else if isOctalDigit c && 0 < rules.octal then
      let (n, rest) := leadingDigits 8 octalDigit? rules.octal 0 (c :: rest)
      some ([UInt8.ofNat n], rest)
    else if c = 'x' && rules.hexadecimal && (rest.head?.bind hexDigit?).isSome then
      let (n, rest) := leadingDigits 16 hexDigit? 2 0 rest
      some ([UInt8.ofNat n], rest)
    else if c = 'e' || (c = 'E' && rules.hexadecimal) then some ([27], rest)
    else some (92 :: charBytes c, rest)

/-- The octets of a text, and whether it goes on behind them. -/
def unescapeFrom (rules : EscapeRules) : Nat → List Char → Bytes × Bool
  | 0, _ => ([], true)
  | _, [] => ([], true)
  | _, ['\\'] => ([92], true)
  | n + 1, '\\' :: c :: rest =>
    match readEscape rules c rest with
    | none => ([], false)
    | some (data, rest) =>
      let (more, goesOn) := unescapeFrom rules n rest
      (data ++ more, goesOn)
  | n + 1, c :: rest =>
    let (more, goesOn) := unescapeFrom rules n rest
    (charBytes c ++ more, goesOn)

/-- The octets of a text with its escapes replaced, and whether it goes on behind them. -/
def unescape (rules : EscapeRules) (s : String) : Bytes × Bool :=
  unescapeFrom rules s.length s.toList

end Distill.Shell
