import Distill.Text.Bytes

/-!
# Names of cache entries

Names of archives and nodes may be any text. Each becomes one component of a path:
letters, digits and a few other characters stand for themselves, and every other octet
is written as a percent sign with two hexadecimal digits.
-/

namespace Distill.Cache

/-- A hexadecimal digit in upper case. -/
def upperHex (n : Nat) : Char := if n < 10 then Char.ofNat (48 + n) else Char.ofNat (55 + n)

/-- Whether an octet stands for itself; a point does not at the start of a name. -/
def isPlain (first : Bool) (b : UInt8) : Bool :=
  let c := Char.ofNat b.toNat
  (b < 128 && c.isAlphanum) || c == '_' || c == '-' || (c == '.' && !first)

/-- An octet of a name. -/
def encodeOctet (first : Bool) (b : UInt8) : List Char :=
  if isPlain first b then [Char.ofNat b.toNat]
  else ['%', upperHex (b.toNat / 16), upperHex (b.toNat % 16)]

/-- The octets of a name; the empty name is a percent sign alone. -/
def encodeOctets : Bytes → List Char
  | [] => ['%']
  | b :: rest => encodeOctet true b ++ rest.flatMap (encodeOctet false)

/-- The component of a path that stands for a name. -/
def encodeName (name : String) : String := String.ofList (encodeOctets (Bytes.ofString name))

end Distill.Cache
