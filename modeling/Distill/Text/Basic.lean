/-!
# White space and lines

## Main definitions

* `isBlank`, `trimBlank` — white space, and a text without it at both ends.
* `textLines` — the lines of a text.
-/

namespace Distill

/-! ## White space -/

/-- The Unicode property `White_Space`. -/
def isBlank (c : Char) : Bool :=
  let n := c.toNat
  (0x09 ≤ n && n ≤ 0x0D) || n == 0x20 || n == 0x85 || n == 0xA0 || n == 0x1680
    || (0x2000 ≤ n && n ≤ 0x200A) || n == 0x2028 || n == 0x2029 || n == 0x202F
    || n == 0x205F || n == 0x3000

/-- Drop the elements at the end that satisfy `p`. -/
def dropEndWhile {α : Type} (p : α → Bool) (xs : List α) : List α :=
  (xs.reverse.dropWhile p).reverse

/-- A text without the white space at both ends. -/
def trimBlank (s : String) : String :=
  String.ofList (dropEndWhile isBlank (s.toList.dropWhile isBlank))

/-- A text without the white space at its end. -/
def trimBlankEnd (s : String) : String := String.ofList (dropEndWhile isBlank s.toList)

/-- A text in quotes as messages show names. -/
def quoted (s : String) : String := "'" ++ s ++ "'"

/-! ## Lines

A line ends in a newline, or in a carriage return and a newline, or with the text. A
carriage return that no newline follows belongs to its line. -/

/-- Put a character before the first line. -/
def pushToLine (c : Char) : List (List Char) → List (List Char)
  | [] => [[c]]
  | line :: rest => (c :: line) :: rest

/-- The lines of a text without their ends. -/
def lineChars : List Char → List (List Char)
  | [] => []
  | c :: rest =>
    if c = '\n' then [] :: lineChars rest
    else if c = '\r' ∧ rest.head? = some '\n' then lineChars rest
    else pushToLine c (lineChars rest)

/-- The lines of a text without their ends. -/
def textLines (s : String) : List String := (lineChars s.toList).map String.ofList

end Distill
