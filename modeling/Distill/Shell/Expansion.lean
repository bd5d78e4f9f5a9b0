import Distill.Shell.Arithmetic
import Distill.Shell.Glob
import Distill.Shell.State

/-!
# Expanded words

A word expands to items, which are then split into fields.

## Main definitions

* `Shell.Item` — what words expand to.
* `Shell.splitItems` — the fields of items.
* `Shell.treat` — what is made of the value of a parameter by a pattern.
* `Shell.expandBraces` — a word for each alternative between braces.
-/

namespace Distill.Shell

/-- Where a character of an expanded word comes from. -/
inductive Mark where
  | quoted
  | plain
  /-- From the value of an expansion outside of quotes. -/
  | expanded
  deriving DecidableEq, Repr

/-- What words expand to. -/
inductive Item where
  | char (c : Char) (mark : Mark)
  /-- A field ends. -/
  | boundary
  /-- There is a field, even if it is empty. -/
  | presence
  deriving DecidableEq, Repr

/-- The items of a text. -/
def itemsOf (mark : Mark) (s : String) : List Item := s.toList.map (.char · mark)

/-- The items of the value of an expansion. -/
def valueItems (quoted : Bool) (s : String) : List Item :=
  if quoted then .presence :: itemsOf .quoted s else itemsOf .expanded s

/-- The items of several values, each a field of its own. -/
def fieldItems (quoted : Bool) (values : List String) : List Item :=
  [Item.boundary].intercalate (values.map (valueItems quoted))

/-- The same items as the value of an expansion. -/
def asExpanded : Item → Item
  | .char c .plain => .char c .expanded
  | i => i

/-- The characters of items as one field. -/
def joinedField (items : List Item) : Field :=
  items.filterMap fun
    | .char c mark => some (c, mark != .quoted)
    | .boundary => some (' ', false)
    | .presence => none

/-- The characters of items as one text. -/
def joinedText (items : List Item) : String := (joinedField items).text

/-- The fields of items, where fields end at separators. A field that is open is given
with its characters in reverse order. -/
def splitFrom (separators : List Char) : Option Field → List Item → List Field
  | current, [] => (current.map List.reverse).toList
  | current, .boundary :: rest =>
    (current.map List.reverse).toList ++ splitFrom separators none rest
  | current, .presence :: rest => splitFrom separators (some (current.getD [])) rest
  | current, .char c mark :: rest =>
    if mark = .expanded ∧ separators.contains c then
      if c = ' ' ∨ c = '\t' ∨ c = '\n' then
        (current.map List.reverse).toList ++ splitFrom separators none rest
      else (current.getD []).reverse :: splitFrom separators none rest
    else splitFrom separators (some ((c, mark != .quoted) :: current.getD [])) rest

/-- The fields of items. -/
def splitItems (separators : List Char) (items : List Item) : List Field :=
  splitFrom separators none items

/-- The characters at which values are split. -/
def State.separators (s : State) : List Char := ((s.text? "IFS").getD " \t\n").toList

/-- The words that a field stands for: paths, or its own text. -/
def State.words (s : State) (f : Field) : List String :=
  if s.options.noPaths then [f.text]
  else
    match Glob.paths s.files s.current f with
    | [] => [f.text]
    | paths => paths

/-! ## Patterns at the ends of values -/

/-- A text without a start that matches a pattern. -/
def dropMatchingStart (longest : Bool) (glob : Glob) (cs : List Char) : List Char :=
  let lengths := List.range (cs.length + 1)
  let lengths := if longest then lengths.reverse else lengths
  match lengths.find? fun n => Glob.accepts glob (cs.take n) with
  | some n => cs.drop n
  | none => cs

/-- A text without an end that matches a pattern. -/
def dropMatchingEnd (longest : Bool) (glob : Glob) (cs : List Char) : List Char :=
  let lengths := List.range (cs.length + 1)
  let lengths := if longest then lengths else lengths.reverse
  match lengths.find? fun n => Glob.accepts glob (cs.drop n) with
  | some n => cs.take n
  | none => cs

/-- The length of the longest start of a text that matches a pattern. -/
def matchLength? (glob : Glob) (cs : List Char) : Option Nat :=
  (List.range (cs.length + 1)).reverse.find? fun n => Glob.accepts glob (cs.take n)

/-- A text with parts that match a pattern replaced. -/
def replaceFrom (glob : Glob) (all : Bool) (content : List Char) : Nat → List Char → List Char
  | 0, cs => cs
  | _, [] => []
  | n + 1, c :: rest =>
    match matchLength? glob (c :: rest) with
    | some (k + 1) =>
      let after := (c :: rest).drop (k + 1)
      content ++ if all then replaceFrom glob all content n after else after
    | _ => c :: replaceFrom glob all content n rest

/-- A text with the parts replaced that match a pattern at a place. -/
def substituted (place : Option Char) (glob : Glob) (content cs : List Char) : List Char :=
  match place with
  | some '#' =>
    match matchLength? glob cs with
    | some n => content ++ cs.drop n
    | none => cs
  | some '%' =>
    let after := dropMatchingEnd true glob cs
    if after.length < cs.length then after ++ content else cs
  | w => replaceFrom glob w.isSome content cs.length cs

/-- The part of a list from a place on, with a length; a negative place counts from the
end, and a negative length leaves as much out at the end. -/
def sliceOf {α : Type} (start : Int) (length : Option Int) (xs : List α) : List α :=
  let n := if start < 0 then xs.length - start.natAbs else start.toNat
  if start < 0 ∧ xs.length < start.natAbs then []
  else
    let rest := xs.drop n
    match length with
    | none => rest
    | some k => if k < 0 then rest.take (rest.length - k.natAbs) else rest.take k.toNat

/-- A text in upper or lower case, or only its first character. -/
def changeCase (upper all : Bool) (cs : List Char) : List Char :=
  let change (c : Char) : Char := if upper then c.toUpper else c.toLower
  match cs with
  | [] => []
  | c :: rest => change c :: if all then rest.map change else rest

/-! ## Braces -/

/-- The alternatives between braces: the texts between commas, or the numbers or letters
of a range. -/
def alternatives (inside : List Char) : List (List Char) :=
  let rec split : Nat → List Char → List (List Char)
    | _, [] => [[]]
    | depth, c :: rest =>
      if c = ',' ∧ depth = 0 then [] :: split 0 rest
      else
        let depth := if c = '\x7b' then depth + 1 else if c = '\x7d' then depth - 1 else depth
        match split depth rest with
        | first :: more => (c :: first) :: more
        | [] => [[c]]
  match split 0 inside with
  | [_] =>
    match (String.ofList inside).splitOn ".." with
    | [a, b] =>
      let range (m n : Int) : List Int :=
        let count := (n - m).natAbs + 1
        (List.range count).map fun (i : Nat) => if m ≤ n then m + (i : Int) else m - (i : Int)
      match a.toInt?, b.toInt? with
      | some m, some n => (range m n).map fun k => (toString k).toList
      | _, _ =>
        match a.toList, b.toList with
        | [x], [y] => (range x.toNat y.toNat).map fun k => [Char.ofNat k.toNat]
        | _, _ => []
    | _ => []
  | many => many

/-- The text before an opening brace, the text between the braces and the text behind. -/
def splitBraces (cs : List Char) : Option (List Char × List Char × List Char) :=
  let before := cs.takeWhile (· != '\x7b')
  let rec close : Nat → List Char → Option (List Char × List Char)
    | _, [] => none
    | depth, c :: rest =>
      if c = '\x7d' ∧ depth = 0 then some ([], rest)
      else
        let depth := if c = '\x7b' then depth + 1 else if c = '\x7d' then depth - 1 else depth
        (close depth rest).map fun (a, b) => (c :: a, b)
  match cs.drop before.length with
  | _ :: rest => (close 0 rest).map fun (inside, after) => (before, inside, after)
  | [] => none

/-- The texts that a text with braces stands for. -/
def expandBraces : Nat → List Char → List (List Char)
  | 0, cs => [cs]
  | n + 1, cs =>
    match splitBraces cs with
    | none => [cs]
    | some (before, inside, after) =>
      match alternatives inside with
      | [] => (expandBraces n after).map fun rest =>
        before ++ '\x7b' :: inside ++ '\x7d' :: rest
      | many =>
        many.flatMap fun a => (expandBraces n a).flatMap fun a =>
          (expandBraces n after).map fun rest => before ++ a ++ rest

/-- The words that a word with braces stands for. -/
def bracesOf (d : Dialect) (w : Word) : List Word :=
  match d, w with
  | .bash, [.plain s] =>
    if s.contains '\x7b' then
      (expandBraces s.length s.toList).map fun cs => Word.ofPlain (String.ofList cs)
    else [w]
  | _, _ => [w]

end Distill.Shell
