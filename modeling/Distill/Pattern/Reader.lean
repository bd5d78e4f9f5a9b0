import Distill.Pattern.Basic

/-!
# Reading patterns

The notation has alternation, groups, greedy and lazy repetition, bracket expressions
with set operations, classes, anchors and flags. It has no back references and no
look-around.

## Main definitions

* `Pattern.Flags` — how what follows is to be understood.
* `Pattern.parse?` — the pattern a text denotes, if it denotes one.
-/

namespace Distill.Pattern

/-- How what follows is to be understood. -/
structure Flags where
  ignoreCase : Bool := false
  multiLine : Bool := false
  dotAll : Bool := false
  crlf : Bool := false
  unicode : Bool := true
  /-- White space and comments are skipped. -/
  verbose : Bool := false
  deriving Repr, Inhabited

/-- Skip white space and comments where they are to be skipped. -/
def skipSpace (fl : Flags) (cs : List Char) : List Char :=
  if fl.verbose then go cs.length cs else cs
where
  /-- Skip blanks, then a comment, and so on. -/
  go : Nat → List Char → List Char
    | 0, cs => cs
    | fuel + 1, cs =>
      match cs.dropWhile isBlank with
      | '#' :: rest => go fuel (rest.dropWhile (· != '\n'))
      | rest => rest

/-! ## Escapes -/

/-- What an escape stands for. -/
inductive Escape where
  | char (c : Char)
  | set (s : CharSet)
  | assertion (a : Assertion)

/-- The characters that have a meaning of their own. -/
def isMeta (c : Char) : Bool :=
  ['\\', '.', '+', '*', '?', '(', ')', '|', '[', ']', '^', '$', '#', '&', '-', '~'].contains c
    || c.toNat == 0x7B || c.toNat == 0x7D

/-- The characters that a backslash makes literal. -/
def isEscapable (c : Char) : Bool :=
  isMeta c || (c.toNat < 128 && !c.isAlphanum && c != '<' && c != '>')

/-- The value of hexadecimal digits that are all of a text. -/
def hexValue? (ds : List Char) : Option Nat :=
  if ds.isEmpty then none
  else ds.foldlM (fun n c =>
    if c.isDigit then some (16 * n + (c.toNat - 48))
    else if 'a' ≤ c ∧ c ≤ 'f' then some (16 * n + (c.toNat - 87))
    else if 'A' ≤ c ∧ c ≤ 'F' then some (16 * n + (c.toNat - 55))
    else none) 0

/-- What stands between an opening brace that has been read and the next closing one. -/
def readBraced (cs : List Char) : Option (List Char × List Char) :=
  match cs.dropWhile (·.toNat != 0x7D) with
  | [] => none
  | _ :: rest => some (cs.takeWhile (·.toNat != 0x7D), rest)

/-- The character of a code, given by `size` digits or in braces. -/
def readHex (size : Nat) (cs : List Char) : Option (Escape × List Char) := do
  let (ds, rest) ←
    match cs with
    | c :: rest =>
      if c.toNat = 0x7B then readBraced rest
      else if size ≤ cs.length then some (cs.take size, cs.drop size) else none
    | [] => none
  let n ← hexValue? ds
  if n.isValidChar then some (.char (Char.ofNat n), rest) else none

/-- A set with the members that differ in case only, where case is ignored. -/
def folded (fl : Flags) (s : CharSet) : CharSet := if fl.ignoreCase then .foldCase s else s

/-- A set or its complement. -/
def negatedIf (neg : Bool) (s : CharSet) : CharSet := if neg then .compl s else s

/-- A property after `\p`, by one letter or in braces. -/
def readProperty (fl : Flags) (neg : Bool) (cs : List Char) : Option (Escape × List Char) := do
  let (name, rest) ←
    match cs with
    | c :: rest => if c.toNat = 0x7B then readBraced rest else some ([c], rest)
    | [] => none
  let (neg, name) := match name with
    | '^' :: name => (!neg, name)
    | name => (neg, name)
  let s ← CharSet.ofProperty? name
  if fl.unicode then some (.set (negatedIf neg (folded fl s)), rest) else none

/-- A class of words, digits or blanks; without Unicode its complement is refused, since
it would hold parts of characters. -/
def perlClass (fl : Flags) (neg : Bool) (unicode ascii : CharSet) : Option Escape :=
  if fl.unicode then some (.set (negatedIf neg unicode))
  else if neg then none else some (.set ascii)

/-- The kinds of word edge that stand in braces after `\b`. -/
def edgeNames (u : Bool) : List (String × Assertion) :=
  [("start", .wordStart u), ("end", .wordEnd u), ("start-half", .noWordBefore u),
   ("end-half", .noWordAfter u)]

/-- What follows a backslash. -/
def readEscape (fl : Flags) (cs : List Char) : Option (Escape × List Char) :=
  match cs with
  | [] => none
  | c :: rest =>
    let digit (neg : Bool) := perlClass fl neg (.categories [.nd]) .asciiDigit
    let blank (neg : Bool) := perlClass fl neg .blank .asciiBlank
    let word (neg : Bool) := perlClass fl neg .word .asciiWord
    if isEscapable c then some (.char c, rest)
    else match c with
      | 'x' => readHex 2 rest
      | 'u' => readHex 4 rest
      | 'U' => readHex 8 rest
      | 'p' => readProperty fl false rest
      | 'P' => readProperty fl true rest
      | 'd' => (digit false).map (·, rest)
      | 'D' => (digit true).map (·, rest)
      | 's' => (blank false).map (·, rest)
      | 'S' => (blank true).map (·, rest)
      | 'w' => (word false).map (·, rest)
      | 'W' => (word true).map (·, rest)
      | 'a' => some (.char '\x07', rest)
      | 'f' => some (.char '\x0C', rest)
      | 't' => some (.char '\t', rest)
      | 'n' => some (.char '\n', rest)
      | 'r' => some (.char '\r', rest)
      | 'v' => some (.char '\x0B', rest)
      | 'A' => some (.assertion .textStart, rest)
      | 'z' => some (.assertion .textEnd, rest)
      | 'b' =>
        match rest with
        | d :: inner =>
          if d.toNat = 0x7B then
            match readBraced inner with
            | some (name, rest') =>
              match (edgeNames fl.unicode).lookup (String.ofList name) with
              | some a => some (.assertion a, rest')
              | none =>
                if name.all (fun c => c.isAlpha || c == '-') then none
                else some (.assertion (.wordEdge fl.unicode), rest)
            | none => none
          else some (.assertion (.wordEdge fl.unicode), rest)
        | [] => some (.assertion (.wordEdge fl.unicode), rest)
      | 'B' => some (.assertion (.noWordEdge fl.unicode), rest)
      | '<' => some (.assertion (.wordStart fl.unicode), rest)
      | '>' => some (.assertion (.wordEnd fl.unicode), rest)
      | _ => none

/-! ## Bracket expressions -/

/-- The operations on sets inside brackets. -/
inductive SetOp where
  | inter | diff | symm

/-- Apply a pending operation to what stands on its right. -/
def SetOp.close (pending : Option (CharSet × SetOp)) (right : CharSet) : CharSet :=
  match pending with
  | none => right
  | some (left, inter) => .inter left right
  | some (left, diff) => .diff left right
  | some (left, symm) => .symm left right

/-- A bracket class such as `[:alpha:]`, after its first bracket. -/
def readAsciiClass (fl : Flags) (cs : List Char) : Option (CharSet × List Char) :=
  match cs with
  | ':' :: rest =>
    let (neg, rest) := match rest with
      | '^' :: r => (true, r)
      | r => (false, r)
    let name := rest.takeWhile (· != ':')
    match rest.dropWhile (· != ':') with
    | ':' :: ']' :: after =>
      (CharSet.ofAsciiName? (String.ofList name)).map fun s =>
        (negatedIf neg (folded fl s), after)
    | _ => none
  | _ => none

/-- An item of a bracket expression before it is known whether it starts a range. -/
def readSetItem (fl : Flags) (cs : List Char) : Option ((Sum Char CharSet) × List Char) :=
  match cs with
  | [] => none
  | '\\' :: rest =>
    match readEscape fl rest with
    | some (.char c, rest) => some (.inl c, rest)
    | some (.set s, rest) => some (.inr s, rest)
    | _ => none
  | c :: rest => some (.inl c, rest)

/-- An item or a range of a bracket expression. -/
def readSetRange (fl : Flags) (cs : List Char) : Option (CharSet × List Char) := do
  let (item, rest) ← readSetItem fl cs
  let alone : CharSet := match item with
    | .inl c => folded fl (.single c)
    | .inr s => s
  match skipSpace fl rest with
  | [] => none
  | '-' :: after =>
    match skipSpace fl after with
    | [] => none
    | ']' :: _ | '-' :: _ => some (alone, '-' :: after)
    | after => do
      let (last, rest) ← readSetItem fl after
      match item, last with
      | .inl a, .inl b =>
        if a ≤ b then some (folded fl (.range a.toNat b.toNat), rest) else none
      | _, _ => none
  | rest => some (alone, rest)

/-- Hyphens at the start of a bracket expression, which are literal. -/
def readHyphens (fl : Flags) : Nat → List Char → CharSet × List Char
  | 0, cs => (.nothing, cs)
  | fuel + 1, cs =>
    match skipSpace fl cs with
    | '-' :: rest =>
      let (s, rest) := readHyphens fl fuel rest
      (.union (.single '-') s, rest)
    | rest => (.nothing, rest)

/-- How deep groups and bracket expressions may be nested. -/
def maxNesting : Nat := 250

mutual

/-- A bracket expression after its opening bracket. -/
def readSet (fl : Flags) : Nat → Nat → List Char → Option (CharSet × List Char)
  | 0, _, _ => none
  | fuel + 1, depth, cs =>
    if maxNesting < depth then none
    else
      let cs := skipSpace fl cs
      let (neg, cs) := match cs with
        | '^' :: rest => (true, rest)
        | cs => (false, cs)
      let (hyphens, cs) := readHyphens fl cs.length cs
      let (start, cs) := match hyphens, cs with
        | .nothing, ']' :: rest => (.single ']', rest)
        | s, cs => (s, cs)
      (readSetItems fl fuel depth none start cs).map fun (s, rest) => (negatedIf neg s, rest)

/-- The items up to the closing bracket, with the set and the operation before them. -/
def readSetItems (fl : Flags) : Nat → Nat → Option (CharSet × SetOp) → CharSet → List Char →
    Option (CharSet × List Char)
  | 0, _, _, _, _ => none
  | fuel + 1, depth, pending, acc, cs =>
    match skipSpace fl cs with
    | [] => none
    | ']' :: rest => some (SetOp.close pending acc, rest)
    | '[' :: rest =>
      match readAsciiClass fl rest with
      | some (s, rest) => readSetItems fl fuel depth pending (.union acc s) rest
      | none =>
        match readSet fl fuel (depth + 1) rest with
        | some (s, rest) => readSetItems fl fuel depth pending (.union acc s) rest
        | none => none
    | '&' :: '&' :: rest =>
      readSetItems fl fuel depth (some (SetOp.close pending acc, .inter)) .nothing rest
    | '-' :: '-' :: rest =>
      readSetItems fl fuel depth (some (SetOp.close pending acc, .diff)) .nothing rest
    | '~' :: '~' :: rest =>
      readSetItems fl fuel depth (some (SetOp.close pending acc, .symm)) .nothing rest
    | cs =>
      match readSetRange fl cs with
      | some (s, rest) => readSetItems fl fuel depth pending (.union acc s) rest
      | none => none

end

/-! ## Flags and counts -/

/-- Set one flag. -/
def setFlag (fl : Flags) (on : Bool) : Char → Option Flags
  | 'i' => some { fl with ignoreCase := on }
  | 'm' => some { fl with multiLine := on }
  | 's' => some { fl with dotAll := on }
  | 'R' => some { fl with crlf := on }
  | 'u' => some { fl with unicode := on }
  | 'x' => some { fl with verbose := on }
  | 'U' => some fl
  | _ => none

/-- Flags up to a colon or a closing parenthesis, each at most once and with at most one
minus sign, which is not the last. -/
def readFlags (fl : Flags) (on : Bool) (seen : List Char) : List Char → Option (Flags × List Char)
  | [] => none
  | c :: rest =>
    if c = ':' ∨ c = ')' then
      if seen.head? = some '-' then none else some (fl, c :: rest)
    else if seen.contains c then none
    else if c = '-' then readFlags fl false ('-' :: seen) rest
    else (setFlag fl on c).bind fun fl => readFlags fl on (c :: seen) rest

/-- A decimal number with white space around it. -/
def readCount (cs : List Char) : Option (Nat × List Char) :=
  let cs := cs.dropWhile isBlank
  let ds := cs.takeWhile Char.isDigit
  let n := ds.foldl (fun n c => 10 * n + (c.toNat - 48)) 0
  if ds.isEmpty || Nat.pow 2 32 ≤ n then none
  else some (n, (cs.dropWhile Char.isDigit).dropWhile isBlank)

/-- Bounds of a repetition after the opening brace. -/
def readBounds (cs : List Char) : Option ((Nat × Option Nat) × List Char) := do
  let (min, rest) ← readCount cs
  match rest with
  | ',' :: rest =>
    match rest.dropWhile isBlank with
    | c :: after =>
      if c.toNat = 0x7D then some ((min, none), after)
      else do
        let (max, rest) ← readCount rest
        match rest with
        | c :: rest =>
          if c.toNat = 0x7D ∧ min ≤ max then some ((min, some max), rest) else none
        | [] => none
    | [] => none
  | c :: rest => if c.toNat = 0x7D then some ((min, some min), rest) else none
  | [] => none

/-! ## Patterns -/

/-- Whether a text may name a group. -/
def isGroupName : List Char → Bool
  | [] => false
  | c :: rest =>
    (c == '_' || hasCategory [.lu, .ll, .lt, .lm, .lo, .nl] c)
      && rest.all fun c => c == '_' || c == '.' || c == '[' || c == ']'
        || hasCategory [.lu, .ll, .lt, .lm, .lo, .nl, .nd, .no] c

/-- A name up to a closing angle bracket that no group before has. -/
def readName (names : List String) (cs : List Char) : Option (String × List Char) :=
  let name := cs.takeWhile (· != '>')
  match cs.dropWhile (· != '>') with
  | _ :: rest =>
    if isGroupName name && !names.contains (String.ofList name) then
      some (String.ofList name, rest)
    else none
  | [] => none

/-- Items one after another; an item that only sets flags is nothing. -/
def seqAll (items : List (Option Pattern)) : Pattern :=
  items.foldl (fun acc item => (item.map fun p => match acc with
    | empty => p
    | acc => seq acc p).getD acc) empty

/-- A literal character. -/
def literal (fl : Flags) (c : Char) : Pattern := set (folded fl (.single c))

/-- What is read so far of the alternatives of a group: its flags, the alternatives that
are complete, and the items of the last one, latest first. -/
structure Partial where
  flags : Flags
  alternatives : List Pattern
  items : List (Option Pattern)
  names : List String

namespace Partial

/-- One more item. -/
def push (st : Partial) (p : Pattern) : Partial := { st with items := some p :: st.items }

/-- The pattern read so far. -/
def finish (st : Partial) : Pattern :=
  match st.alternatives.reverse ++ [seqAll st.items.reverse] with
  | [] => empty
  | p :: rest => rest.foldl alt p

/-- Repeat the last item, unless there is none. -/
def repeatLast (st : Partial) (min : Nat) (max : Option Nat) : Option Partial :=
  match st.items with
  | some p :: items => some { st with items := some (repeated p min max) :: items }
  | _ => none

end Partial

/-- A question mark after a repetition, which makes it lazy. -/
def skipLazy : List Char → List Char
  | '?' :: rest => rest
  | cs => cs

/-- Read on in the alternatives of a group at a depth of nesting, up to the parenthesis
that closes it or the end. The names of all groups read are handed on. -/
def readAlternatives :
    Nat → Nat → Partial → List Char → Option ((Pattern × List String) × List Char)
  | 0, _, _, _ => none
  | fuel + 1, depth, st, cs =>
    let fl := st.flags
    let go (st : Partial) (rest : List Char) := readAlternatives fuel depth st rest
    let again (min : Nat) (max : Option Nat) (rest : List Char) :=
      (st.repeatLast min max).bind fun st => readAlternatives fuel depth st (skipLazy rest)
    let group (names : List String) (inner : Flags) (rest : List Char) :=
      if maxNesting < depth + 1 then none
      else
        (readAlternatives fuel (depth + 1) ⟨inner, [], [], names⟩ rest).bind
          fun ((p, names), rest) =>
            match rest with
            | ')' :: rest =>
              go ({ st with names }.push p) rest
            | _ => none
    match skipSpace fl cs with
    | [] => if depth = 0 then some ((st.finish, st.names), []) else none
    | ')' :: rest => if depth = 0 then none else some ((st.finish, st.names), ')' :: rest)
    | '|' :: rest =>
      go { st with alternatives := seqAll st.items.reverse :: st.alternatives, items := [] } rest
    | '*' :: rest => again 0 none rest
    | '+' :: rest => again 1 none rest
    | '?' :: rest => again 0 (some 1) rest
    | '[' :: rest =>
      (readSet fl (2 * rest.length + 2) depth rest).bind fun (s, rest) => go (st.push (set s)) rest
    | '.' :: rest =>
      if !fl.unicode then none
      else
        let ends : CharSet := if fl.crlf then .union (.single '\n') (.single '\r') else .single '\n'
        go (st.push (set (if fl.dotAll then .any else .compl ends))) rest
    | '^' :: rest =>
      go (st.push (assertion (if fl.multiLine then .lineStart fl.crlf else .textStart))) rest
    | '$' :: rest =>
      go (st.push (assertion (if fl.multiLine then .lineEnd fl.crlf else .textEnd))) rest
    | '\\' :: rest =>
      (readEscape fl rest).bind fun (e, rest) =>
        match e with
        | .char c => go (st.push (literal fl c)) rest
        | .set s => go (st.push (set s)) rest
        | .assertion a => go (st.push (assertion a)) rest
    | '(' :: rest =>
      match skipSpace fl rest with
      | '?' :: '=' :: _ | '?' :: '!' :: _ | '?' :: '<' :: '=' :: _ | '?' :: '<' :: '!' :: _ => none
      | '?' :: 'P' :: '<' :: rest | '?' :: '<' :: rest =>
        (readName st.names rest).bind fun (name, rest) => group (name :: st.names) fl rest
      | '?' :: rest =>
        (readFlags fl true [] rest).bind fun (inner, after) =>
          match after with
          | ':' :: after => group st.names inner after
          | ')' :: after =>
            if after.length + 1 = rest.length then none
            else go { st with flags := inner, items := none :: st.items } after
          | _ => none
      | rest => group st.names fl rest
    | c :: rest =>
      if c.toNat = 0x7B then
        (readBounds rest).bind fun ((min, max), rest) => again min max rest
      else go (st.push (literal fl c)) rest

/-- The greatest number of steps of a pattern that is accepted. -/
def maxSize : Nat := 262144

/-- The pattern a text denotes. -/
def parse? (s : String) : Option Pattern :=
  let cs := s.toList
  (readAlternatives (cs.length + 1) 0 ⟨{}, [], [], []⟩ cs).bind fun ((p, _), _) =>
    if p.size ≤ maxSize then some p else none

end Distill.Pattern
