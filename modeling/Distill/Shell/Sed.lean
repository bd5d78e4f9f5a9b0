import Distill.Shell.Matching
import Distill.Shell.State

/-!
# Editing streams

Lines are edited one after another by commands, each for the lines that it addresses.

## Main definitions

* `Shell.Edit` — a command.
* `Shell.Edit.read?` — the commands of a script.
* `Shell.editLines` — what is written for lines.
-/

namespace Distill.Shell

/-- A line that a command addresses. -/
inductive Address where
  | number (n : Nat)
  | last
  | pattern (p : Pattern)
  deriving Repr, Inhabited

/-- What a command does. -/
inductive EditAction where
  | print
  | delete
  /-- Write the line and end. -/
  | quit
  | substitute (p : Pattern) (replacement : List Char) (all print : Bool)
  deriving Repr, Inhabited

/-- A command for the lines from one address to another. -/
structure Edit where
  first : Option Address
  last : Option Address
  negated : Bool
  action : EditAction
  deriving Repr, Inhabited

/-- The text up to a delimiter, which may be escaped, and the text behind it. -/
def splitDelimited (delimiter : Char) : List Char → Option (List Char × List Char)
  | [] => none
  | '\\' :: c :: rest =>
    (splitDelimited delimiter rest).map fun (a, b) =>
      (if c = delimiter then c :: a else '\\' :: c :: a, b)
  | c :: rest =>
    if c = delimiter then some ([], rest)
    else (splitDelimited delimiter rest).map fun (a, b) => (c :: a, b)

/-- Read an address if there is one. -/
def readAddress? (style : Notation) (cs : List Char) : Option (Option Address × List Char) :=
  match cs with
  | '$' :: rest => some (some .last, rest)
  | '/' :: rest => do
    let (text, rest) ← splitDelimited '/' rest
    let p ← Pattern.parse? (style.patternText (String.ofList text))
    return (some (.pattern p), rest)
  | _ =>
    let digits := cs.takeWhile Char.isDigit
    if digits.isEmpty then some (none, cs)
    else (decimal digits).map fun n => (some (.number n), cs.drop digits.length)
where
  /-- The number of digits. -/
  decimal (digits : List Char) : Option Nat := (String.ofList digits).toNat?

/-- Read what a command does. -/
def readAction? (style : Notation) (cs : List Char) : Option (EditAction × List Char) :=
  match cs with
  | 'p' :: rest => some (.print, rest)
  | 'd' :: rest => some (.delete, rest)
  | 'q' :: rest => some (.quit, rest)
  | 's' :: delimiter :: rest => do
    let (text, rest) ← splitDelimited delimiter rest
    let (replacement, rest) ← splitDelimited delimiter rest
    let flags := rest.takeWhile Char.isAlphanum
    let start := if flags.contains 'i' || flags.contains 'I' then "(?i)" else ""
    let p ← Pattern.parse? (start ++ style.patternText (String.ofList text))
    return (.substitute p replacement (flags.contains 'g') (flags.contains 'p'),
      rest.drop flags.length)
  | _ => none

/-- The commands of a script. -/
def Edit.read? (style : Notation) : Nat → List Char → Option (List Edit)
  | 0, _ => none
  | n + 1, cs =>
    match cs.dropWhile fun c => c = ' ' || c = ';' || c = '\n' with
    | [] => some []
    | cs => do
      let (first, cs) ← readAddress? style cs
      let (last, cs) ← match cs with
        | ',' :: rest => readAddress? style rest
        | _ => some (none, cs)
      let cs := cs.dropWhile (· == ' ')
      let negated := cs.head? = some '!'
      let (action, cs) ← readAction? style (if negated then cs.drop 1 else cs)
      return ⟨first, last, negated, action⟩ :: (← Edit.read? style n cs)

/-- Whether an address is that of a line. -/
def Address.holds (a : Address) (number : Nat) (last : Bool) (line : List Char) : Bool :=
  match a with
  | .number n => n == number
  | .last => last
  | .pattern p => p.isMatch (String.ofList line)

/-- Whether a command is for a line, and whether it is for the lines that follow. -/
def Edit.applies (e : Edit) (active : Bool) (number : Nat) (last : Bool) (line : List Char) :
    Bool × Bool :=
  let (here, next) := match e.first, e.last with
    | none, _ => (true, false)
    | some a, none => (a.holds number last line, false)
    | some a, some b =>
      if active then (true, !b.holds number last line)
      else if a.holds number last line then
        (true, match b with
          | .number n => number < n
          | _ => true)
      else (false, false)
  (here != e.negated, next)

/-- What has become of a line. -/
structure Edited where
  line : List Char
  /-- Lines that are written before it. -/
  written : List (List Char) := []
  deleted : Bool := false
  quit : Bool := false

/-- Do a command on a line. -/
def EditAction.apply (a : EditAction) (e : Edited) : Edited :=
  match a with
  | .print => { e with written := e.written ++ [e.line] }
  | .delete => { e with deleted := true }
  | .quit => { e with quit := true }
  | .substitute p replacement all shown =>
    if p.isMatch (String.ofList e.line) then
      let line := replaceMatches p replacement all e.line
      { e with line, written := if shown then e.written ++ [line] else e.written }
    else e

/-- Do commands on a line; gives also which of them are for the lines that follow. -/
def editLine (number : Nat) (last : Bool) :
    List (Edit × Bool) → Edited → Edited × List (Edit × Bool)
  | [], e => (e, [])
  | (edit, active) :: rest, e =>
    if e.deleted || e.quit then (e, (edit, active) :: rest)
    else
      let (here, next) := edit.applies active number last e.line
      let e := if here then edit.action.apply e else e
      let (e, rest) := editLine number last rest e
      (e, (edit, next) :: rest)

/-- What is written for lines; without `silent` each line is. -/
def editLines (silent : Bool) : Nat → List (Edit × Bool) → List (List Char) → List (List Char)
  | _, _, [] => []
  | number, edits, line :: rest =>
    let (e, edits) := editLine number rest.isEmpty edits { line }
    let here := e.written ++ if e.deleted || silent then [] else [e.line]
    here ++ if e.quit then [] else editLines silent (number + 1) edits rest

end Distill.Shell
