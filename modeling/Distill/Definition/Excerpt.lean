import Distill.Text.Basic

/-!
# Excerpts

The lines of a source around the place of an error, with a mark for the place. Lines, columns
and the number of lines around them are machine words; sums of words beyond 64 bits start again
at zero.

## Main definitions

* `Excerpt.lines` — the numbered lines and the row of the caret.
* `Excerpt.hint` — a suggestion for common mistakes on the line of an error.
-/

namespace Distill.Excerpt

/-- How many lines before and after the line of an error are shown. -/
def contextLines : UInt64 := 2

/-- A number right-aligned in four columns. -/
def lineNumber (n : Nat) : String :=
  let digits := toString n
  String.ofList (List.replicate (4 - digits.length) ' ') ++ digits

/-- The row of a line: a mark on the line of the error, the number and the text. -/
def row (marked : Bool) (n : Nat) (text : String) : String :=
  (if marked then ">" else " ") ++ " " ++ lineNumber n ++ " | " ++ text

/-- The row of the caret. -/
def caret (column : UInt64) : String :=
  "       | " ++ String.ofList (List.replicate (column + 7).toNat ' ') ++ "^"

/-- The rows for the lines from number `n` on, up to number `last`: that of the error is
marked and has the caret below it. -/
def rows (line : Nat) (column : UInt64) (last : Nat) : Nat → List String → List String
  | _, [] => []
  | n, text :: rest =>
    if last < n then []
    else
      row (n = line) n text ::
        ((if n = line ∧ 0 < column then [caret column] else []) ++
          rows line column last (n + 1) rest)

/-- The rows around a place in a source. Lines and columns count from one; line zero
stands for no place. -/
def lines (source : String) (line column around : UInt64) : List String :=
  if line = 0 then []
  else
    let first := line.toNat - (around + 1).toNat
    rows line.toNat column (line + around).toNat (first + 1) ((textLines source).drop first)

/-- The rows around a place, each with its end. -/
def context (source : String) (line column around : UInt64) : String :=
  String.join ((lines source line column around).map (· ++ "\n"))

/-- A suggestion for common mistakes on a line of a source. -/
def hint (source : String) (line : Nat) : Option String :=
  if line = 0 then none
  else ((textLines source)[line - 1]?).bind fun text =>
    if text.startsWith "\t" then
      some "YAML prefers spaces over tabs for indentation. Replace tabs with spaces."
    else if text.contains '{' && text.contains ':' && !text.contains '"' then
      some ("braces start a YAML flow mapping; quote values that contain " ++
        "'\x7bplaceholders\x7d'")
    else none

end Distill.Excerpt
