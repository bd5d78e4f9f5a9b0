import Distill.Definition.Loading
import Distill.Proofs.Results
import Mathlib.Algebra.Group.Nat.Defs

/-!
# Excerpts around an error

An excerpt shows the line of an error, as many lines before and after it as are asked for and as
there are, and a caret below the line. The rows of lines start with a mark and the number of the
line, and the caret has a row of its own with blanks in front of it. The number takes four columns,
or more if it has more digits.

The caret stands sixteen characters behind its column, whatever the number of the line is. The text
of a line stands nine characters behind the start of its row, as long as the number has at most four
digits, and one more for each further digit. As columns are counted from one, the caret stands eight
characters too far to the right below such a line, and it would stand below its character only for
numbers of twelve digits.

## Main definitions

* `Excerpt.lineAt`, `Excerpt.plainRow` — the line of a number, and its row without a mark.
* `Excerpt.gutter` — how many characters stand in front of the text of a line.

## Main statements

* `Excerpt.lines_eq`, `Excerpt.lines_split` — which rows an excerpt has.
* `Excerpt.drop_gutter_row`, `Excerpt.getElem?_caret` — where the text of a line and the caret
  stand.
* `Excerpt.marks_line_and_misses_column` — what follows for the column of an error.
-/

namespace Distill.Excerpt

variable {source : String} {line column around : UInt64}

/-! ## Rows -/

/-- The line of a number, counted from one. -/
def lineAt (source : String) (n : Nat) : String := ((textLines source)[n - 1]?).getD ""

/-- The rows for a line: its own, and the caret if it is the line of the error. -/
def rowsFor (source : String) (line : Nat) (column : UInt64) (n : Nat) : List String :=
  row (n = line) n (lineAt source n) :: (if n = line ∧ 0 < column then [caret column] else [])

/-- **There are rows for each line up to a last one, or up to the end of the text.** -/
theorem rows_drop (source : String) (line : Nat) (column : UInt64) (last n : Nat) :
    rows line column last (n + 1) ((textLines source).drop n) =
      (List.range' (n + 1) (min (textLines source).length last - n)).flatMap
        (rowsFor source line column) := by
  induction h : (textLines source).drop n generalizing n with
  | nil =>
      have hlength : (textLines source).length ≤ n := List.drop_eq_nil_iff.mp h
      have hcount : min (textLines source).length last - n = 0 := by omega
      rw [rows, hcount]
      rfl
  | cons text rest ih =>
      have hlength : n < (textLines source).length := by
        rw [← List.drop_eq_nil_iff.not.trans Nat.not_le, h]
        exact List.cons_ne_nil _ _
      have htext : lineAt source (n + 1) = text := by
        rw [lineAt, Nat.add_sub_cancel, ← List.head?_drop, h]
        rfl
      have hrest : (textLines source).drop (n + 1) = rest := by
        rw [← List.drop_drop, h]
        rfl
      rw [rows]
      by_cases hlast : last < n + 1
      · have hcount : min (textLines source).length last - n = 0 := by omega
        rw [if_pos hlast, hcount]
        rfl
      · have hcount : min (textLines source).length last - n =
            min (textLines source).length last - (n + 1) + 1 := by omega
        rw [if_neg hlast, hcount, List.range'_succ, List.flatMap_cons, ih (n + 1) hrest, rowsFor,
          htext]
        rfl

/-- **An excerpt has rows for the lines around that of the error,** if the words do not overflow. -/
theorem lines_eq (hline : 1 ≤ line.toNat) (hfit : line.toNat + around.toNat + 1 < 2 ^ 64) :
    lines source line column around =
      (List.range' (max 1 (line.toNat - around.toNat))
        (min (textLines source).length (line.toNat + around.toNat) + 1 -
          max 1 (line.toNat - around.toNat))).flatMap (rowsFor source line.toNat column) := by
  have hplace : line ≠ 0 := by
    intro hzero
    rw [hzero] at hline
    exact absurd hline (by decide)
  have hbefore : (around + 1).toNat = around.toNat + 1 := by
    rw [UInt64.toNat_add, UInt64.toNat_one, Nat.mod_eq_of_lt (by omega)]
  have hbehind : (line + around).toNat = line.toNat + around.toNat := by
    rw [UInt64.toNat_add, Nat.mod_eq_of_lt (by omega)]
  have hfirst : line.toNat - (around.toNat + 1) + 1 = max 1 (line.toNat - around.toNat) := by omega
  have hcount : min (textLines source).length (line.toNat + around.toNat) -
      (line.toNat - (around.toNat + 1)) =
        min (textLines source).length (line.toNat + around.toNat) + 1 -
          max 1 (line.toNat - around.toNat) := by omega
  rw [lines, if_neg hplace, rows_drop, hbefore, hbehind, hfirst, hcount]

/-- The row of a line without an error. -/
def plainRow (source : String) (n : Nat) : String := row false n (lineAt source n)

/-- Lines without an error have one row each. -/
theorem flatMap_rowsFor {line : Nat} {numbers : List Nat} (h : ∀ n ∈ numbers, n ≠ line) :
    numbers.flatMap (rowsFor source line column) = numbers.map (plainRow source) := by
  induction numbers with
  | nil => rfl
  | cons n rest ih =>
      rw [List.forall_mem_cons] at h
      rw [List.flatMap_cons, List.map_cons, ih h.2, rowsFor, plainRow]
      simp [h.1]

/-- **The row of the error and the caret stand between the rows of other lines.** -/
theorem lines_split (hline : 1 ≤ line.toNat) (hlast : line.toNat ≤ (textLines source).length)
    (hfit : line.toNat + around.toNat + 1 < 2 ^ 64) (hcolumn : 1 ≤ column.toNat) :
    lines source line column around =
      (List.range' (max 1 (line.toNat - around.toNat))
          (line.toNat - max 1 (line.toNat - around.toNat))).map (plainRow source) ++
        row true line.toNat (lineAt source line.toNat) :: caret column ::
        (List.range' (line.toNat + 1)
          (min (textLines source).length (line.toNat + around.toNat) - line.toNat)).map
            (plainRow source) := by
  have hnumbers : List.range' (max 1 (line.toNat - around.toNat))
      (min (textLines source).length (line.toNat + around.toNat) + 1 -
        max 1 (line.toNat - around.toNat)) =
        List.range' (max 1 (line.toNat - around.toNat))
          (line.toNat - max 1 (line.toNat - around.toNat)) ++ line.toNat ::
          List.range' (line.toNat + 1)
            (min (textLines source).length (line.toNat + around.toNat) - line.toNat) := by
    rw [← List.range'_succ, List.range'_eq_append_iff]
    refine ⟨line.toNat - max 1 (line.toNat - around.toNat), by omega, rfl, ?_⟩
    congr 1 <;> omega
  have hrow : rowsFor source line.toNat column line.toNat =
      [row true line.toNat (lineAt source line.toNat), caret column] := by
    have hpos : 0 < column := UInt64.lt_iff_toNat_lt.mpr hcolumn
    simp [rowsFor, hpos]
  rw [lines_eq hline hfit, hnumbers, List.flatMap_append, List.flatMap_cons, hrow, flatMap_rowsFor,
    flatMap_rowsFor]
  · rfl
  · intro n hn
    rw [List.mem_range'_1] at hn
    omega
  · intro n hn
    rw [List.mem_range'_1] at hn
    omega

/-! ## Columns -/

/-- How many characters stand in the row of a line in front of its text. -/
def gutter (n : Nat) : Nat := max 4 (toString n).length + 5

theorem toList_row (marked : Bool) (n : Nat) (text : String) : (row marked n text).toList =
    (if marked then '>' else ' ') :: ' ' :: ((lineNumber n).toList ++ [' ', '|', ' '] ++
      text.toList) := by
  cases marked <;> simp [row]

theorem length_lineNumber (n : Nat) : (lineNumber n).length = max 4 (toString n).length := by
  rw [lineNumber, String.length_append, String.length_ofList, List.length_replicate]
  omega

/-- **The text of a line stands behind the gutter.** -/
theorem drop_gutter_row (marked : Bool) (n : Nat) (text : String) :
    (row marked n text).toList.drop (gutter n) = text.toList := by
  have hlength : ((lineNumber n).toList ++ [' ', '|', ' ']).length =
      max 4 (toString n).length + 3 := by
    rw [List.length_append, String.length_toList, length_lineNumber]
    rfl
  rw [toList_row, gutter, List.drop_succ_cons, List.drop_succ_cons, ← hlength, List.drop_left]

/-- **The caret stands sixteen characters behind its column,** and nowhere else. -/
theorem getElem?_caret {i : Nat} (hfit : column.toNat + 7 < 2 ^ 63) :
    (caret column).toList[i]? = some '^' ↔ i = column.toNat + 16 := by
  have hseven : (7 : UInt64).toNat = 7 := rfl
  have hblanks : (column + 7).toNat = column.toNat + 7 := by
    rw [UInt64.toNat_add, hseven, Nat.mod_eq_of_lt (by omega)]
  have hcaret : (caret column).toList =
      ("       | ".toList ++ List.replicate (column.toNat + 7) ' ') ++ ['^'] := by
    simp [caret, hblanks]
  have hlength : ("       | ".toList ++ List.replicate (column.toNat + 7) ' ').length =
      column.toNat + 16 := by
    rw [List.length_append, List.length_replicate]
    simp
    omega
  have hblank : '^' ∉ "       | ".toList ++ List.replicate (column.toNat + 7) ' ' := by simp
  rw [hcaret]
  by_cases hi : i < column.toNat + 16
  · rw [List.getElem?_append_left (by omega)]
    constructor
    · intro h
      exact absurd (List.mem_of_getElem? h) hblank
    · omega
  · rw [List.getElem?_append_right (by omega), hlength]
    by_cases heq : i = column.toNat + 16
    · simp [heq]
    · have hpast : i - (column.toNat + 16) ≠ 0 := by omega
      simp [heq, hpast]

/-- **The line of an error is marked, and the caret misses the column.** Let the number of the line
and the lines around it add up to a machine word, and let the blanks in front of the caret be no
more than a text can have. Then an excerpt shows the lines from `around` before the error to
`around` behind it, as far as there are lines, each of them once and in their order. The line of the
error is the only one with a mark, and the caret is the row behind it. The text of a line starts
behind the gutter, so that its character at a column is found there; the caret stands sixteen
characters behind the column. This is eight characters behind the character for all numbers of at
most four digits, and it is the place of the character just if the number of the line has twelve
digits. -/
theorem marks_line_and_misses_column (hline : 1 ≤ line.toNat)
    (hlast : line.toNat ≤ (textLines source).length) (hcolumn : 1 ≤ column.toNat)
    (hfit : line.toNat + around.toNat + 1 < 2 ^ 64) (hblanks : column.toNat + 7 < 2 ^ 63) :
    context source line column around =
      String.join ((lines source line column around).map (· ++ "\n")) ∧
    lines source line column around =
      (List.range' (max 1 (line.toNat - around.toNat))
          (line.toNat - max 1 (line.toNat - around.toNat))).map (plainRow source) ++
        row true line.toNat (lineAt source line.toNat) :: caret column ::
        (List.range' (line.toNat + 1)
          (min (textLines source).length (line.toNat + around.toNat) - line.toNat)).map
            (plainRow source) ∧
    (∀ n, 1 ≤ n → n ≤ (textLines source).length →
      (textLines source)[n - 1]? = some (lineAt source n)) ∧
    (∀ marked n text, (row marked n text).toList.head? = some '>' ↔ marked = true) ∧
    (row true line.toNat (lineAt source line.toNat)).toList[gutter line.toNat +
        (column.toNat - 1)]? = (lineAt source line.toNat).toList[column.toNat - 1]? ∧
    (∀ i, (caret column).toList[i]? = some '^' ↔ i = column.toNat + 16) ∧
    (column.toNat + 16 = gutter line.toNat + (column.toNat - 1) ↔
      (toString line.toNat).length = 12) ∧
    ((toString line.toNat).length ≤ 4 →
      column.toNat + 16 = gutter line.toNat + (column.toNat - 1) + 8) := by
  refine ⟨rfl, lines_split hline hlast hfit hcolumn, ?_, ?_, ?_, fun i => getElem?_caret hblanks,
    ?_, ?_⟩
  · intro n hn hlength
    have hlt : n - 1 < (textLines source).length := by omega
    rw [lineAt, List.getElem?_eq_getElem hlt]
    rfl
  · intro marked n text
    rw [toList_row, List.head?_cons]
    cases marked <;> simp
  · rw [← List.getElem?_drop, drop_gutter_row]
  · rw [gutter]
    omega
  · rw [gutter]
    omega

/-- A list that is not closed, which shows four lines later. -/
def unclosedList : String := "- name: log
  type: exec
  exec: [cat
  timeout: 1
"

theorem unclosedList_marks_line_and_misses_column :
    4 ≤ (textLines unclosedList).length ∧
    lines unclosedList 4 10 2 = ["     2 |   type: exec", "     3 |   exec: [cat",
      ">    4 |   timeout: 1", "       |                  ^"] ∧
    (row true 4 "  timeout: 1").toList[18]? = some ':' ∧
    (∀ i, (caret 10).toList[i]? = some '^' ↔ i = 26) ∧ 26 = gutter 4 + 9 + 8 := by
  have hlast : 4 ≤ (textLines unclosedList).length := by decide +kernel
  obtain ⟨-, hlines, -, -, -, hcaret, -, height⟩ :=
    @marks_line_and_misses_column unclosedList 4 10 2 (by decide) hlast (by decide) (by decide)
      (by decide)
  have hrow : (row true 4 "  timeout: 1").toList[18]? = some ':' := by decide +kernel
  exact ⟨hlast, by rw [hlines]; decide +kernel, hrow, hcaret, height (by decide)⟩

/-- The second colon stands at the fifth column, and the caret is not below it. -/
theorem secondColon_missed :
    (∃ e, Definition.NodeSet.ofText "a: b: c" = .error e ∧ e.line = 1 ∧ e.column = 5 ∧
      e.context = ">    1 | a: b: c\n       |             ^\n") ∧
    lines "a: b: c" 1 5 2 = [">    1 | a: b: c", "       |             ^"] ∧
    "a: b: c".toList[4]? = some ':' ∧ ">    1 | a: b: c".toList[13]? = some ':' ∧
    "       |             ^".toList[13]? ≠ some '^' ∧
    "       |             ^".toList[21]? = some '^' := by
  refine ⟨?_, by decide +kernel, by decide, by decide, by decide, by decide⟩
  have hread : (errorOf? (Definition.NodeSet.ofText "a: b: c")).map
      (fun e => (e.line, e.column, e.context)) =
      some (1, 5, ">    1 | a: b: c\n       |             ^\n") := by decide +kernel
  obtain ⟨e, he, hplace⟩ := Option.map_eq_some_iff.mp hread
  simp only [Prod.mk.injEq] at hplace
  exact ⟨e, errorOf?_eq_some_iff.mp he, hplace⟩

end Distill.Excerpt
