/-!
# Octets and UTF-8

## Main definitions

* `Bytes` — a list of octets.
* `Bytes.ofString`, `Bytes.text?` — UTF-8 encoding, and strict decoding.
* `Bytes.lossyText` — decoding that puts U+FFFD for every maximal malformed part.
-/

namespace Distill

/-- Raw output, file contents, payloads. -/
abbrev Bytes := List UInt8

namespace Bytes

/-- The UTF-8 form of a text. -/
def ofString (s : String) : Bytes := s.toUTF8.data.toList

/-- The text whose UTF-8 form the octets are. -/
def text? (b : Bytes) : Option String := String.fromUTF8? ⟨b.toArray⟩

/-- Whether an octet continues a character. -/
def isTail (b : UInt8) : Bool := 0x80 ≤ b && b ≤ 0xBF

/-- Whether `b` may follow the lead `a` of a character of three or four octets. -/
def mayFollow (a b : UInt8) : Bool :=
  if a = 0xE0 then 0xA0 ≤ b && b ≤ 0xBF
  else if a = 0xED then 0x80 ≤ b && b ≤ 0x9F
  else if a = 0xF0 then 0x90 ≤ b && b ≤ 0xBF
  else if a = 0xF4 then 0x80 ≤ b && b ≤ 0x8F
  else isTail b

/-- The mark for a malformed part. -/
def replacement : Char := '\uFFFD'

/-- The low six bits of a continuing octet. -/
def tailBits (b : UInt8) : Nat := b.toNat % 64

/-- Decode, putting U+FFFD for each longest start of a character that does not go on
as a character must, and for each octet that starts none. -/
def lossyChars : Bytes → List Char
  | [] => []
  | a :: rest =>
    if a < 0x80 then Char.ofNat a.toNat :: lossyChars rest
    else if a < 0xC2 || 0xF4 < a then replacement :: lossyChars rest
    else match rest with
      | [] => [replacement]
      | b :: rest₁ =>
        if a < 0xE0 then
          if isTail b then Char.ofNat (a.toNat % 32 * 64 + tailBits b) :: lossyChars rest₁
          else replacement :: lossyChars (b :: rest₁)
        else if !mayFollow a b then replacement :: lossyChars (b :: rest₁)
        else match rest₁ with
          | [] => [replacement]
          | c :: rest₂ =>
            if !isTail c then replacement :: lossyChars (c :: rest₂)
            else if a < 0xF0 then
              Char.ofNat ((a.toNat % 16 * 64 + tailBits b) * 64 + tailBits c) :: lossyChars rest₂
            else match rest₂ with
              | [] => [replacement]
              | d :: rest₃ =>
                if !isTail d then replacement :: lossyChars (d :: rest₃)
                else
                  Char.ofNat (((a.toNat % 8 * 64 + tailBits b) * 64 + tailBits c) * 64 + tailBits d)
                    :: lossyChars rest₃

/-- Decode with U+FFFD for what is malformed. -/
def lossyText (b : Bytes) : String := String.ofList (lossyChars b)

end Bytes

end Distill
