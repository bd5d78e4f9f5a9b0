import Distill.Json.Value

/-!
# JSON texts of values

## Main definitions

* `Number.text` — integers in full; doubles with the fewest digits that read back,
  positional for decimal exponents from `-5` to `15`.
* `Json.text` — the compact form, without any white space.
* `Json.prettyText` — one item or field a line, two blanks of indentation a level.
-/

namespace Distill

/-- The text of a number. -/
def Number.text : Number → String
  | int i => toString i
  | real x => x.shortText "+"

namespace Json

/-- The hexadecimal digit of a number below sixteen, in lower case. -/
def hexDigit (n : Nat) : Char := if n < 10 then Char.ofNat (48 + n) else Char.ofNat (87 + n)

/-- A character inside quotes: quotes, backslashes and controls below U+0020 are
escaped, all else stands for itself. -/
def escapeChar (c : Char) : List Char :=
  if c = '"' then ['\\', '"']
  else if c = '\\' then ['\\', '\\']
  else if c = '\n' then ['\\', 'n']
  else if c = '\r' then ['\\', 'r']
  else if c = '\t' then ['\\', 't']
  else if c = '\x08' then ['\\', 'b']
  else if c = '\x0c' then ['\\', 'f']
  else if c.toNat < 0x20 then
    ['\\', 'u', '0', '0', hexDigit (c.toNat / 16), hexDigit (c.toNat % 16)]
  else [c]

/-- A string in quotes. -/
def stringText (s : String) : List Char := '"' :: (s.toList.flatMap escapeChar ++ ['"'])

/-! ## The compact form -/

mutual

/-- The characters of the compact form. -/
def chars : Json → List Char
  | null => "null".toList
  | bool b => if b then "true".toList else "false".toList
  | number n => n.text.toList
  | string s => stringText s
  | array items => '[' :: (itemChars items ++ [']'])
  | object fields => '{' :: (fieldChars fields ++ ['}'])

/-- Items with commas between them. -/
def itemChars : List Json → List Char
  | [] => []
  | [v] => chars v
  | v :: w :: rest => chars v ++ ',' :: itemChars (w :: rest)

/-- Fields with commas between them. -/
def fieldChars : List (String × Json) → List Char
  | [] => []
  | [(k, v)] => stringText k ++ ':' :: chars v
  | (k, v) :: f :: rest => stringText k ++ ':' :: (chars v ++ ',' :: fieldChars (f :: rest))

end

/-- The compact form. -/
def text (v : Json) : String := String.ofList v.chars

/-- A string as it is, any other value in the compact form. -/
def plain : Json → String
  | string s => s
  | v => v.text

/-! ## The indented form -/

/-- A new line at a level of indentation. -/
def lineBreak (level : Nat) : List Char := '\n' :: List.replicate (2 * level) ' '

mutual

/-- The characters of the indented form of a value that starts at `level`. -/
def prettyChars (level : Nat) : Json → List Char
  | array [] => ['[', ']']
  | array (v :: rest) =>
    '[' :: (lineBreak (level + 1) ++ prettyChars (level + 1) v ++ prettyItems (level + 1) rest
      ++ lineBreak level ++ [']'])
  | object [] => ['{', '}']
  | object ((k, v) :: rest) =>
    '{' :: (lineBreak (level + 1) ++ stringText k ++ ':' :: ' ' :: prettyChars (level + 1) v
      ++ prettyFields (level + 1) rest ++ lineBreak level ++ ['}'])
  | v => chars v

/-- The items after the first. -/
def prettyItems (level : Nat) : List Json → List Char
  | [] => []
  | v :: rest => ',' :: (lineBreak level ++ prettyChars level v ++ prettyItems level rest)

/-- The fields after the first. -/
def prettyFields (level : Nat) : List (String × Json) → List Char
  | [] => []
  | (k, v) :: rest =>
    ',' :: (lineBreak level ++ stringText k ++ ':' :: ' ' :: prettyChars level v
      ++ prettyFields level rest)

end

/-- The indented form. -/
def prettyText (v : Json) : String := String.ofList (v.prettyChars 0)

end Json

end Distill
