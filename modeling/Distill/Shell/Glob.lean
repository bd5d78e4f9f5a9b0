import Distill.Files.Tree

/-!
# Patterns of names

Characters of a word that are not quoted may stand for others.

## Main definitions

* `Shell.Field` — the characters of an expanded word, with the ones that are special.
* `Shell.Glob`, `Shell.Glob.ofField` — patterns.
* `Shell.Glob.accepts` — whether a text matches as a whole.
* `Shell.Glob.paths` — the paths that match.
-/

namespace Distill.Shell

/-- The characters of an expanded word; the flag is set unless a character is quoted. -/
abbrev Field := List (Char × Bool)

/-- The text of a word. -/
def Field.text (f : Field) : String := String.ofList (f.map (·.1))

/-- An item of a pattern. -/
inductive GlobItem where
  | char (c : Char)
  | any
  | star
  /-- A character in one of some ranges, or in none of them. -/
  | range (negated : Bool) (ranges : List (Char × Char))
  deriving DecidableEq, Repr

/-- A pattern. -/
abbrev Glob := List GlobItem

namespace Glob

/-- The characters of a bracket expression up to its end. The flag tells whether a closing
bracket stands for itself. -/
def splitBracket : Bool → Field → Option (List (Char × Bool) × Field)
  | _, [] => none
  | first, (c, active) :: rest =>
    if c = ']' ∧ active ∧ !first then some ([], rest)
    else (splitBracket false rest).map fun (a, b) => ((c, active) :: a, b)

/-- The ranges of the characters of a bracket expression. -/
def rangesOf : List (Char × Bool) → List (Char × Char)
  | (a, _) :: ('-', true) :: (b, _) :: rest => (a, b) :: rangesOf rest
  | (a, _) :: rest => (a, a) :: rangesOf rest
  | [] => []

/-- The pattern of the characters of a word. -/
def ofChars : Nat → Field → Glob
  | 0, _ => []
  | _, [] => []
  | n + 1, (c, active) :: rest =>
    if active ∧ c = '*' then .star :: ofChars n rest
    else if active ∧ c = '?' then .any :: ofChars n rest
    else if active ∧ c = '[' then
      let negated := match rest with
        | ('!', _) :: _ | ('^', _) :: _ => true
        | _ => false
      match splitBracket true (if negated then rest.drop 1 else rest) with
      | some (inside, after) => .range negated (rangesOf inside) :: ofChars n after
      | none => .char c :: ofChars n rest
    else .char c :: ofChars n rest

/-- The pattern of a word. -/
def ofField (f : Field) : Glob := ofChars f.length f

/-- Whether an item matches a character. -/
def itemMatches (c : Char) : GlobItem → Bool
  | .char d => c = d
  | .any | .star => true
  | .range negated ranges => negated != ranges.any fun (a, b) => a ≤ c && c ≤ b

/-- A text without some characters at its start, the longest first. -/
def suffixes : List Char → List (List Char)
  | [] => [[]]
  | c :: rest => (c :: rest) :: suffixes rest

/-- Whether a pattern matches a text as a whole. -/
def accepts : Glob → List Char → Bool
  | [], cs => cs.isEmpty
  | .star :: rest, cs => (suffixes cs).any fun suffix => accepts rest suffix
  | item :: rest, cs =>
    match cs with
    | [] => false
    | c :: cs => itemMatches c item && accepts rest cs

/-- Whether a word is a pattern. -/
def isPattern (f : Field) : Bool :=
  (ofField f).any fun
    | .char _ => false
    | _ => true

/-- The parts of a word between slashes. -/
def components (f : Field) : List Field :=
  let start : Field × List Field := ([], [])
  let (last, before) := f.foldr (fun (c, a) (here, done) =>
    if c = '/' then ([], here :: done) else ((c, a) :: here, done)) start
  last :: before

/-- The names of the entries that a part of a word matches. -/
def namesIn (t : FileTree) (directory : List String) (part : Field) : List String :=
  match t.names directory with
  | .error _ => []
  | .ok names =>
    let glob := ofField part
    let hidden := glob.head? = some (.char '.')
    names.filter fun name => (hidden || !name.startsWith ".") && accepts glob name.toList

/-- The paths that the parts of a word match, with the text of each so far. -/
def expand (t : FileTree) : List Field → List String → String → List String
  | [], _, text => [text]
  | part :: rest, directory, text =>
    let join (name : String) := text ++ name ++ (if rest.isEmpty then "" else "/")
    if isPattern part then
      (namesIn t directory part).flatMap fun name =>
        expand t rest (directory ++ [name]) (join name)
    else
      let name := part.text
      let here := if name = "" then directory else directory ++ [name]
      if rest.isEmpty && (t.resolve here).toOption.isNone then []
      else expand t rest here (join name)

/-- The paths that a word matches, in ascending order; none if it is no pattern. -/
def paths (t : FileTree) (current : List String) (f : Field) : List String :=
  if isPattern f then
    let parts := components f
    if (f.head?.map (·.1)) = some '/' then expand t (parts.drop 1) [] "/"
    else expand t parts current ""
  else []

end Glob

end Distill.Shell
