import Distill.Pattern.Reader

/-!
# Matches in lines

The utilities for text look for the first of the longest parts of a line that match.

## Main definitions

* `Shell.Notation`, `Shell.readPattern?` — the notations of expressions.
* `Shell.firstMatch?` — the first part of a text that matches.
* `Shell.replaceMatches` — a text with matches replaced.
-/

namespace Distill.Shell

/-- How an expression is written. -/
inductive Notation where
  /-- Brackets and repetitions are special behind a backslash. -/
  | plain
  | extended
  /-- Nothing is special. -/
  | literal
  deriving DecidableEq, Repr

/-- The characters that are special behind a backslash in plain notation. -/
def escapedSpecials : List Char := ['(', ')', '\x7b', '\x7d', '|', '+', '?']

/-- An expression in plain notation, in that of patterns. -/
def plainExpression : List Char → List Char
  | '\\' :: c :: rest =>
    if escapedSpecials.contains c then c :: plainExpression rest
    else '\\' :: c :: plainExpression rest
  | c :: rest =>
    if escapedSpecials.contains c then '\\' :: c :: plainExpression rest
    else c :: plainExpression rest
  | [] => []

/-- A text as an expression that only it matches. -/
def literalExpression (cs : List Char) : List Char :=
  cs.flatMap fun c => if c.isAlphanum || 127 < c.toNat || c = ' ' then [c] else ['\\', c]

/-- An expression in the notation of patterns. -/
def Notation.patternText (n : Notation) (expression : String) : String :=
  match n with
  | .plain => String.ofList (plainExpression expression.toList)
  | .extended => expression
  | .literal => String.ofList (literalExpression expression.toList)

/-- The end of the longest match that starts at a gap. -/
def matchEnd? (p : Pattern) (gs : List Gap) (start : Nat) : Option Nat :=
  let ends := p.reach gs ((List.range gs.length).map (· == start))
  ((ends.zipIdx.filter (·.1)).getLast?).map (·.2)

/-- The first part of a text from a gap on that matches: where it starts and ends. -/
def firstMatch? (p : Pattern) (text : List Char) (origin : Nat) : Option (Nat × Nat) :=
  let gs := gaps text
  ((List.range gs.length).drop origin).findSome? fun start =>
    (matchEnd? p gs start).map fun stop => (start, stop)

/-- The parts of a text that match, one behind the other. -/
def allMatches (p : Pattern) (text : List Char) : Nat → Nat → List (Nat × Nat)
  | 0, _ => []
  | n + 1, origin =>
    match firstMatch? p text origin with
    | none => []
    | some (start, stop) =>
      (start, stop) :: allMatches p text n (if stop = start then stop + 1 else stop)

/-- A replacement for a match, where an ampersand stands for the match itself. -/
def fillReplacement (found : List Char) : List Char → List Char
  | '\\' :: 'n' :: rest => '\n' :: fillReplacement found rest
  | '\\' :: c :: rest => c :: fillReplacement found rest
  | '&' :: rest => found ++ fillReplacement found rest
  | c :: rest => c :: fillReplacement found rest
  | [] => []

/-- A text with matches replaced: only the first, or all. -/
def replaceMatches (p : Pattern) (content : List Char) (all : Bool) (text : List Char) :
    List Char :=
  let found := allMatches p text (text.length + 1) 0
  let found := if all then found else found.take 1
  let (out, last) := found.foldl (fun (out, last) (start, stop) =>
    if start < last || (start = stop && start = last && 0 < last) then (out, last)
    else
      let piece := (text.take stop).drop start
      (out ++ (text.take start).drop last ++ fillReplacement piece content, stop)) ([], 0)
  out ++ text.drop last

end Distill.Shell
