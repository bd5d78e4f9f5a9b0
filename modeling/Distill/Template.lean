import Distill.Text.Basic

/-!
# Placeholder templates

Command lines and descriptions hold placeholders `{token}`, where a token is a word of
ASCII letters, digits and underscores; a doubled brace stands for the brace itself.

## Main definitions

* `Template.parse` — the segments of a text, or the first fault with its position.
* `Template.placeholders` — the tokens in order of first appearance.
* `Template.render` — the text with the placeholders replaced; one that is not bound
  stays as it is written.
-/

namespace Distill

/-- A piece of a template. -/
inductive Segment where
  /-- Literal text, with braces no longer doubled. -/
  | text (s : String)
  | placeholder (token : String)
  deriving DecidableEq, Repr, Inhabited

/-- A template is the list of its segments. -/
structure Template where
  segments : List Segment
  deriving DecidableEq, Repr, Inhabited

/-- Why a text is no template; positions count characters. -/
inductive TemplateError where
  | unclosed (position : Nat)
  | invalidToken (token : String) (position : Nat)
  | unmatched (position : Nat)
  deriving DecidableEq, Repr

namespace TemplateError

/-- Where the fault is. -/
def position : TemplateError → Nat
  | unclosed p | invalidToken _ p | unmatched p => p

/-- What is wrong. -/
def message : TemplateError → String
  | unclosed _ => "unclosed '\x7b'"
  | invalidToken token _ => "invalid placeholder '\x7b" ++ token ++ "\x7d'"
  | unmatched _ => "unmatched '\x7d'"

/-- What is wrong, and where. -/
def display (e : TemplateError) : String :=
  "template error at position " ++ toString e.position ++ ": " ++ e.message

end TemplateError

namespace Template

/-- The opening brace. -/
def opening : Char := '{'

/-- The closing brace. -/
def closing : Char := '}'

/-- Whether a character may stand in a token. -/
def isTokenChar (c : Char) : Bool := c.isAlphanum || c == '_'

/-- Whether a text is a token. -/
def isToken (token : List Char) : Bool := !token.isEmpty && token.all isTokenChar

/-- Put a literal character before the segments, joining it to a text that follows. -/
def pushChar (c : Char) : List Segment → List Segment
  | .text s :: rest => .text (String.singleton c ++ s) :: rest
  | rest => .text (String.singleton c) :: rest

/-- The segments of a text that starts at `pos`. -/
def parseFrom (pos : Nat) (cs : List Char) : Except TemplateError (List Segment) :=
  match cs with
  | [] => .ok []
  | c :: rest =>
    if c = opening then
      match rest with
      | [] => .error (.unclosed pos)
      | d :: tail =>
        if d = opening then (parseFrom (pos + 2) tail).map (pushChar opening)
        else
          let token := (d :: tail).takeWhile (· != closing)
          match h : (d :: tail).dropWhile (· != closing) with
          | [] => .error (.unclosed pos)
          | _ :: after =>
            if isToken token then
              (parseFrom (pos + token.length + 2) after).map
                (.placeholder (String.ofList token) :: ·)
            else .error (.invalidToken (String.ofList token) pos)
    else if c = closing then
      match rest with
      | [] => .error (.unmatched pos)
      | d :: after =>
        if d = closing then (parseFrom (pos + 2) after).map (pushChar closing)
        else .error (.unmatched pos)
    else (parseFrom (pos + 1) rest).map (pushChar c)
termination_by cs.length
decreasing_by
  · simp only [List.length_cons]; omega
  · have := (List.dropWhile_sublist (· != closing) (l := d :: tail)).length_le
    rw [h] at this
    simp only [List.length_cons] at this ⊢
    omega
  · simp only [List.length_cons]; omega
  · simp only [List.length_cons]; omega

/-- The template a text denotes. -/
def parse (s : String) : Except TemplateError Template := (parseFrom 0 s.toList).map .mk

/-- The tokens of the placeholders, in order and with repetitions. -/
def tokens (t : Template) : List String :=
  t.segments.filterMap fun
    | .placeholder token => some token
    | .text _ => none

/-- The tokens in order of first appearance. -/
def placeholders (t : Template) : List String :=
  t.tokens.foldl (fun seen token => if seen.contains token then seen else seen ++ [token]) []

/-- A segment with a placeholder replaced by what it is bound to. -/
def renderSegment (lookup : String → Option String) : Segment → String
  | .text s => s
  | .placeholder token => (lookup token).getD ("\x7b" ++ token ++ "\x7d")

/-- The text with every bound placeholder replaced. -/
def render (t : Template) (lookup : String → Option String) : String :=
  String.join (t.segments.map (renderSegment lookup))

end Template

end Distill
