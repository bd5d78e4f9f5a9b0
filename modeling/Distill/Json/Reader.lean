import Distill.Json.Value
import Distill.Text.Bytes

/-!
# Reading JSON texts

Strict JSON: no comments, no trailing commas, no lone surrogates, at most 127 levels of
nesting, no number beyond the range of doubles. A text is read with the fields of its
objects in the order in which they stand, repetitions included; `Json.parse?` then
orders them.

## Main definitions

* `Number.read` — a number at the start of a text. Integers that fit 64 bits stay
  integers; any other number is a 64-bit significand scaled by a power of ten, with
  the digits that do not fit dropped.
* `Json.parseRaw?`, `Json.parse?` — a text that is one value.
* `Json.parseStream?` — a text that is a sequence of values.
-/

namespace Distill

namespace Number

/-- The greatest 64-bit natural. -/
def maxSignificand : Nat := Nat.pow 2 64 - 1

/-- The digits at the start of a text, and what follows them. -/
def spanDigits (cs : List Char) : List Char × List Char :=
  (cs.takeWhile Char.isDigit, cs.dropWhile Char.isDigit)

/-- A significand with a power of ten. -/
structure Scaled where
  significand : Nat
  exponent : Int

/-- Take the digits of an integral part while the significand fits; each further digit
raises the exponent. The flag says whether all fitted. -/
def takeIntegral : Nat → List Char → Scaled × Bool
  | n, [] => (⟨n, 0⟩, true)
  | n, c :: cs =>
    let next := 10 * n + digitsValue [c]
    if maxSignificand < next then (⟨n, (c :: cs).length⟩, false) else takeIntegral next cs

/-- Take the digits of a fraction while the significand fits; further digits are
dropped. -/
def takeFraction : Scaled → List Char → Scaled
  | s, [] => s
  | s, c :: cs =>
    let next := 10 * s.significand + digitsValue [c]
    if maxSignificand < next then s else takeFraction ⟨next, s.exponent - 1⟩ cs

/-- The double nearest to `10 ^ k`, for `k` up to 308. -/
def powerOfTen (k : Nat) : Double := (Double.ofDecimal false ⟨1, k⟩).getD (Double.zero false)

/-- Scale a double by a power of ten, in steps of at most `10 ^ 308` with one rounding
each; nothing beyond the range. A number that has become zero stays zero. -/
def scale : Nat → Double → Int → Option Double
  | 0, x, _ => some x
  | steps + 1, x, e =>
    if e.natAbs ≤ 308 then
      if 0 ≤ e then x.mul (powerOfTen e.natAbs) else x.div (powerOfTen e.natAbs)
    else if x.mant = 0 then some x
    else if 0 ≤ e then none
    else (x.div (powerOfTen 308)).bind fun y => scale steps y (e + 308)

/-- The double of a scaled significand with a sign. Three steps bring every 64-bit
significand to zero. -/
def Scaled.toDouble? (neg : Bool) (s : Scaled) : Option Double :=
  (scale 4 (Double.ofInt s.significand) s.exponent).map fun x => { x with neg }

/-- The greatest exponent that is read as a number. -/
def maxExponent : Nat := Nat.pow 2 31 - 1

/-- The exponent after `e`, if there is one: its digits are required. An exponent
beyond the limits makes the number zero or, when the number is not zero and the exponent
positive, out of range. -/
def readExponent (neg : Bool) (s : Scaled) (cs : List Char) : Option (Number × List Char) :=
  match cs with
  | c :: rest =>
    if c = 'e' ∨ c = 'E' then
      let (down, rest) := match rest with
        | '-' :: r => (true, r)
        | '+' :: r => (false, r)
        | r => (false, r)
      let (ds, rest) := spanDigits rest
      if ds.isEmpty then none
      else
        let e := digitsValue ds
        if maxExponent < e then
          if s.significand ≠ 0 ∧ !down then none else some (.real (Double.zero neg), rest)
        else
          let e : Int := if down then -e else e
          (Scaled.toDouble? neg ⟨s.significand, s.exponent + e⟩).map fun x => (.real x, rest)
    else (s.toDouble? neg).map fun x => (.real x, c :: rest)
  | [] => (s.toDouble? neg).map fun x => (.real x, [])

/-- A number without its sign, at the start of a text. Minus zero is a double. -/
def readUnsigned (neg : Bool) (cs : List Char) : Option (Number × List Char) :=
  let (ds, rest) := spanDigits cs
  if ds.isEmpty ∨ (1 < ds.length ∧ ds.head? = some '0') then none
  else
    let (s, fits) := takeIntegral 0 ds
    match rest with
    | '.' :: rest =>
      let (fs, rest) := spanDigits rest
      if fs.isEmpty then none else readExponent neg (takeFraction s fs) rest
    | _ =>
      if rest.head? = some 'e' ∨ rest.head? = some 'E' ∨ !fits then readExponent neg s rest
      else if !neg then some (.int s.significand, rest)
      else if s.significand = 0 ∨ Nat.pow 2 63 < s.significand then
        some (.real { Double.ofInt s.significand with neg := true }, rest)
      else some (.int (-s.significand), rest)

/-- A number at the start of a text. -/
def read : List Char → Option (Number × List Char)
  | '-' :: cs => readUnsigned true cs
  | cs => readUnsigned false cs

end Number

namespace Json

/-- The white space of JSON. -/
def isSpace (c : Char) : Bool := c == ' ' || c == '\n' || c == '\t' || c == '\r'

/-- A text without the white space at its start. -/
def skipSpace (cs : List Char) : List Char := cs.dropWhile isSpace

/-! ## Strings -/

/-- The value of a hexadecimal digit. -/
def hexValue? (c : Char) : Option Nat :=
  if '0' ≤ c ∧ c ≤ '9' then some (c.toNat - 48)
  else if 'a' ≤ c ∧ c ≤ 'f' then some (c.toNat - 87)
  else if 'A' ≤ c ∧ c ≤ 'F' then some (c.toNat - 55)
  else none

/-- The value of four hexadecimal digits. -/
def hex4? (a b c d : Char) : Option Nat := do
  return ((← hexValue? a) * 16 + (← hexValue? b)) * 256 + (← hexValue? c) * 16 + (← hexValue? d)

/-- The characters up to the closing quote, and what follows it. A pair of surrogate
escapes is one character; a lone one is refused. -/
def readChars : Nat → List Char → Option (List Char × List Char)
  | 0, _ => none
  | fuel + 1, cs =>
    let go (c : Char) (rest : List Char) :=
      (readChars fuel rest).map fun (cs, rest) => (c :: cs, rest)
    match cs with
    | [] => none
    | '"' :: rest => some ([], rest)
    | '\\' :: 'u' :: a :: b :: c :: d :: rest =>
      (hex4? a b c d).bind fun n =>
        if 0xDC00 ≤ n ∧ n ≤ 0xDFFF then none
        else if 0xD800 ≤ n ∧ n ≤ 0xDBFF then
          match rest with
          | '\\' :: 'u' :: a :: b :: c :: d :: rest =>
            (hex4? a b c d).bind fun m =>
              if 0xDC00 ≤ m ∧ m ≤ 0xDFFF then
                go (Char.ofNat (0x10000 + (n - 0xD800) * 0x400 + (m - 0xDC00))) rest
              else none
          | _ => none
        else go (Char.ofNat n) rest
    | '\\' :: c :: rest =>
      match c with
      | '"' => go '"' rest
      | '\\' => go '\\' rest
      | '/' => go '/' rest
      | 'b' => go '\x08' rest
      | 'f' => go '\x0c' rest
      | 'n' => go '\n' rest
      | 'r' => go '\r' rest
      | 't' => go '\t' rest
      | _ => none
    | c :: rest => if c = '\\' ∨ c.toNat < 0x20 then none else go c rest

/-- A string after its opening quote. -/
def readString (cs : List Char) : Option (String × List Char) :=
  (readChars (cs.length + 1) cs).map fun (s, rest) => (String.ofList s, rest)

/-! ## Values -/

/-- A word at the start of a text. -/
def readWord (word : String) (v : Json) (cs : List Char) : Option (Json × List Char) :=
  if word.toList.isPrefixOf cs then some (v, cs.drop word.length) else none

mutual

/-- A value after white space, with at most `levels` of nesting. -/
def read : Nat → Nat → List Char → Option (Json × List Char)
  | 0, _, _ => none
  | fuel + 1, levels, cs =>
    match skipSpace cs with
    | [] => none
    | '"' :: rest => (readString rest).map fun (s, rest) => (string s, rest)
    | '[' :: rest =>
      if levels = 0 then none
      else match skipSpace rest with
        | ']' :: rest => some (array [], rest)
        | rest => (readItems fuel (levels - 1) rest).map fun (vs, rest) => (array vs, rest)
    | '{' :: rest =>
      if levels = 0 then none
      else match skipSpace rest with
        | '}' :: rest => some (object [], rest)
        | rest => (readFields fuel (levels - 1) rest).map fun (fs, rest) => (object fs, rest)
    | 'n' :: rest => readWord "null" null ('n' :: rest)
    | 't' :: rest => readWord "true" (bool true) ('t' :: rest)
    | 'f' :: rest => readWord "false" (bool false) ('f' :: rest)
    | c :: rest => (Number.read (c :: rest)).map fun (n, rest) => (number n, rest)

/-- Items up to the closing bracket; at least one. -/
def readItems : Nat → Nat → List Char → Option (List Json × List Char)
  | 0, _, _ => none
  | fuel + 1, levels, cs =>
    (read fuel levels cs).bind fun (v, rest) =>
      match skipSpace rest with
      | ']' :: rest => some ([v], rest)
      | ',' :: rest => (readItems fuel levels rest).map fun (vs, rest) => (v :: vs, rest)
      | _ => none

/-- Fields up to the closing brace; at least one. -/
def readFields : Nat → Nat → List Char → Option (List (String × Json) × List Char)
  | 0, _, _ => none
  | fuel + 1, levels, cs =>
    match skipSpace cs with
    | '"' :: rest =>
      (readString rest).bind fun (k, rest) =>
        match skipSpace rest with
        | ':' :: rest =>
          (read fuel levels rest).bind fun (v, rest) =>
            match skipSpace rest with
            | '}' :: rest => some ([(k, v)], rest)
            | ',' :: rest =>
              (readFields fuel levels rest).map fun (fs, rest) => ((k, v) :: fs, rest)
            | _ => none
        | _ => none
    | _ => none

end

/-- The greatest depth of nesting that is read. -/
def maxDepth : Nat := 127

/-- A value at the start of a text. Every call consumes a character within two steps. -/
def readValue (cs : List Char) : Option (Json × List Char) :=
  read (2 * cs.length + 2) maxDepth cs

/-- A text that is one value with white space around it, fields as they stand. -/
def parseRaw? (cs : List Char) : Option Json :=
  (readValue cs).bind fun (v, rest) => if (skipSpace rest).isEmpty then some v else none

/-- A text that is one value with white space around it. -/
def parse? (s : String) : Option Json := (parseRaw? s.toList).map sort

/-- Whether a value shows its own end. -/
def isDelimited : Json → Bool
  | string _ | array _ | object _ => true
  | _ => false

/-- What may follow a scalar that does not show its own end. -/
def mayFollowScalar : List Char → Bool
  | [] => true
  | c :: _ => isSpace c || ['"', '[', ']', '{', '}', ',', ':'].contains c

/-- The values of a text one after another, with or without white space between. -/
def readStream : Nat → List Char → Option (List Json)
  | 0, _ => none
  | fuel + 1, cs =>
    match skipSpace cs with
    | [] => some []
    | cs =>
      (readValue cs).bind fun (v, rest) =>
        if v.isDelimited || mayFollowScalar rest then
          (readStream fuel rest).map (v.sort :: ·)
        else none

/-- A text that is a sequence of values. -/
def parseStream? (s : String) : Option (List Json) :=
  readStream (s.length + 1) s.toList

/-- Octets that are the UTF-8 form of one value, fields as they stand. -/
def parseRawBytes? (b : Bytes) : Option Json := b.text?.bind fun s => parseRaw? s.toList

/-- Octets that are the UTF-8 form of one value. -/
def parseBytes? (b : Bytes) : Option Json := b.text?.bind parse?

end Json

end Distill
