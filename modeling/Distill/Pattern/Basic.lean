import Distill.Pattern.CharSet

/-!
# Patterns

Regular expressions, and whether one matches somewhere in a text.

A text of `n` characters has `n + 1` gaps. A pattern takes a set of gaps, where a match
may start, to the set of gaps where it may then end; so all ways of matching are followed
at once, and repetition is a union that grows at most `n + 1` times.

## Main definitions

* `Pattern` — the regular expressions.
* `Pattern.reach` — the gaps reached from a set of gaps.
* `Pattern.isMatch` — whether some part of a text matches.
-/

namespace Distill

/-- A condition on a gap. -/
inductive Assertion where
  | textStart | textEnd
  | lineStart (crlf : Bool) | lineEnd (crlf : Bool)
  /-- One side is a word character and the other is not; for ASCII or for all words. -/
  | wordEdge (unicode : Bool)
  | noWordEdge (unicode : Bool)
  | wordStart (unicode : Bool) | wordEnd (unicode : Bool)
  | noWordBefore (unicode : Bool) | noWordAfter (unicode : Bool)
  deriving DecidableEq, Repr, Inhabited

/-- A regular expression. -/
inductive Pattern where
  | empty
  | set (s : CharSet)
  | assertion (a : Assertion)
  | seq (a b : Pattern)
  | alt (a b : Pattern)
  /-- At least `min` times, and at most `max` times when there is a bound. -/
  | repeated (a : Pattern) (min : Nat) (max : Option Nat)
  deriving Repr, Inhabited

/-- A place between characters: what stands before it and what after it. -/
structure Gap where
  before : Option Char
  after : Option Char
  deriving DecidableEq, Repr

/-- The gaps of a text that follows a character. -/
def gapsAfter (before : Option Char) : List Char → List Gap
  | [] => [⟨before, none⟩]
  | c :: rest => ⟨before, some c⟩ :: gapsAfter (some c) rest

/-- The gaps of a text. -/
def gaps (cs : List Char) : List Gap := gapsAfter none cs

/-- Whether a character is there and belongs to words. -/
def isWordSide (unicode : Bool) : Option Char → Bool
  | some c => (if unicode then CharSet.word else CharSet.asciiWord).mem c
  | none => false

/-- Whether a condition holds at a gap. -/
def Assertion.holds (g : Gap) : Assertion → Bool
  | textStart => g.before.isNone
  | textEnd => g.after.isNone
  | lineStart crlf =>
    g.before.isNone || g.before == some '\n'
      || (crlf && g.before == some '\r' && g.after != some '\n')
  | lineEnd crlf =>
    if crlf then
      g.after.isNone || g.after == some '\r' || (g.after == some '\n' && g.before != some '\r')
    else g.after.isNone || g.after == some '\n'
  | wordEdge u => isWordSide u g.before != isWordSide u g.after
  | noWordEdge u => isWordSide u g.before == isWordSide u g.after
  | wordStart u => !isWordSide u g.before && isWordSide u g.after
  | wordEnd u => isWordSide u g.before && !isWordSide u g.after
  | noWordBefore u => !isWordSide u g.before
  | noWordAfter u => !isWordSide u g.after

/-- A set of gaps: for each gap of a text, whether it is in the set. -/
abbrev GapSet := List Bool

namespace GapSet

/-- The gaps in one set or the other. -/
def union (a b : GapSet) : GapSet := a.zipWith (· || ·) b

/-- The gaps after one character of a set. -/
def step (s : CharSet) (gs : List Gap) (starts : GapSet) : GapSet :=
  false :: (gs.zipWith (fun g b => b && (g.after.map s.mem).getD false) starts).dropLast

/-- Apply a step `n` times. -/
def iterate (f : GapSet → GapSet) : Nat → GapSet → GapSet
  | 0, s => s
  | n + 1, s => iterate f n (f s)

/-- Apply a step at most `n` times, keeping what was reached before. -/
def grow (f : GapSet → GapSet) : Nat → GapSet → GapSet
  | 0, s => s
  | n + 1, s => grow f n (s.union (f s))

end GapSet

namespace Pattern

/-- The gaps where a match ends that starts at one of `starts`. -/
def reach (gs : List Gap) : Pattern → GapSet → GapSet
  | empty, starts => starts
  | set s, starts => GapSet.step s gs starts
  | assertion a, starts => gs.zipWith (fun g b => b && a.holds g) starts
  | seq a b, starts => b.reach gs (a.reach gs starts)
  | alt a b, starts => (a.reach gs starts).union (b.reach gs starts)
  | repeated a min max, starts =>
    let more := match max with
      | some m => Nat.min (m - min) gs.length
      | none => gs.length
    GapSet.grow (a.reach gs) more (GapSet.iterate (a.reach gs) min starts)

/-- Whether some part of a text matches. -/
def isMatch (p : Pattern) (s : String) : Bool :=
  let gs := gaps s.toList
  (p.reach gs (gs.map fun _ => true)).any id

/-- How many steps a pattern takes when its counted repetitions are written out. -/
def size : Pattern → Nat
  | empty | set _ | assertion _ => 1
  | seq a b | alt a b => a.size + b.size + 1
  | repeated a min max => (a.size + 1) * Nat.max 1 (max.getD (min + 1))

end Pattern

end Distill
