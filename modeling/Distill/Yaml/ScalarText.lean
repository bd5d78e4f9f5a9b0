import Distill.Yaml.Cursor

/-!
# Scalars in YAML texts

Quoted, plain and block scalars. Inside quoted and plain scalars a single line break is
a blank and further breaks stay; in block scalars the style decides.

## Main definitions

* `Yaml.readQuoted`, `Yaml.readPlain`, `Yaml.readBlock` — the scalar that starts at a
  cursor.
-/

namespace Distill.Yaml

/-- A scalar that has been read: its text, where it stops, what follows, and whether
the last thing read was a line break. -/
structure ScalarRead where
  text : List Char
  stop : Mark
  cursor : Cursor
  brokeLine : Bool := false

/-! ## White space inside scalars -/

/-- White space between two words of a scalar: blanks on one line, or a first line break
and further ones. -/
structure Spacing where
  blanks : List Char := []
  first : List Char := []
  further : List Char := []
  broken : Bool := false

namespace Spacing

/-- What the white space stands for: blanks stay; a first line feed is a blank when no
break follows and nothing otherwise; other breaks stay. -/
def fold (s : Spacing) : List Char :=
  if s.broken then
    if s.first.head? = some '\n' then
      if s.further.isEmpty then [' '] else s.further
    else s.first ++ s.further
  else s.blanks

/-- Read white space. Behind a line break, a tab before column `limit` is refused. -/
def read (limit : Option Int) : Nat → Spacing → Cursor → Except Cursor (Spacing × Cursor)
  | 0, s, c => .ok (s, c)
  | fuel + 1, s, c =>
    match c.peek with
    | none => .ok (s, c)
    | some ch =>
      if isBlank ch then
        let isEarly := (limit.map fun n => decide ((c.column : Int) < n)).getD false
        if s.broken && ch == '\t' && isEarly then
          .error c
        else if s.broken then read limit fuel s (c.skip 1)
        else read limit fuel { s with blanks := s.blanks ++ [ch] } (c.skip 1)
      else if isBreak ch then
        let (br, c) := c.readBreak
        if s.broken then read limit fuel { s with further := s.further ++ br } c
        else read limit fuel { s with blanks := [], first := br, broken := true } c
      else .ok (s, c)

end Spacing

/-! ## Quoted scalars -/

/-- The characters that escapes of one letter stand for. -/
def simpleEscape : Char → Option Char
  | '0' => some '\x00'
  | 'a' => some '\x07'
  | 'b' => some '\x08'
  | 't' | '\t' => some '\t'
  | 'n' => some '\n'
  | 'v' => some '\x0B'
  | 'f' => some '\x0C'
  | 'r' => some '\r'
  | 'e' => some '\x1B'
  | ' ' => some ' '
  | '"' => some '"'
  | '/' => some '/'
  | '\\' => some '\\'
  | 'N' => some '\u0085'
  | '_' => some '\u00A0'
  | 'L' => some '\u2028'
  | 'P' => some '\u2029'
  | _ => none

/-- How many hexadecimal digits an escape has. -/
def escapeDigits : Char → Option Nat
  | 'x' => some 2
  | 'u' => some 4
  | 'U' => some 8
  | _ => none

/-- The value of a hexadecimal digit. -/
def hexDigitValue? (c : Char) : Option Nat :=
  if c.isDigit then some (c.toNat - 48)
  else if 'a' ≤ c ∧ c ≤ 'f' then some (c.toNat - 87)
  else if 'A' ≤ c ∧ c ≤ 'F' then some (c.toNat - 55)
  else none

/-- The value of the first `n` characters as hexadecimal digits. -/
def hexValue? (n : Nat) (cs : List Char) : Option Nat :=
  if cs.length < n then none
  else (cs.take n).foldlM (fun v c => (hexDigitValue? c).map (16 * v + ·)) 0

/-- The characters up to white space or the closing quote, what follows them, and
whether they end with an escaped line break. -/
def readQuotedWord (single : Bool) (start : Mark) :
    Nat → Cursor → Except Fault (List Char × Cursor × Bool)
  | 0, c => .ok ([], c, false)
  | fuel + 1, c =>
    let go (ch : Char) (n : Nat) : Except Fault (List Char × Cursor × Bool) :=
      (readQuotedWord single start fuel (c.skip n)).map fun (w, r) => (ch :: w, r)
    match c.peek, c.ahead 1 with
    | none, _ => .ok ([], c, false)
    | some ch, next =>
      if isBlank ch || isBreak ch then .ok ([], c, false)
      else if single then
        if ch = '\'' then if next = some '\'' then go '\'' 2 else .ok ([], c, false)
        else go ch 1
      else if ch = '"' then .ok ([], c, false)
      else if ch = '\\' then
        match next with
        | none => .error (c.fault .unknownEscape (some (.quotedEscape, start)))
        | some e =>
          if isBreak e then .ok ([], (c.skip 1).skipBreak, true)
          else match simpleEscape e, escapeDigits e with
            | some ch, _ => go ch 2
            | none, some n =>
              let c' := c.skip 2
              match hexValue? n c'.rest with
              | none => .error (c'.fault .missingHexadecimal (some (.quotedEscape, start)))
              | some v =>
                if v.isValidChar then go (Char.ofNat v) (2 + n)
                else .error (c'.fault .invalidUnicode (some (.quotedEscape, start)))
            | none, none => .error (c.fault .unknownEscape (some (.quotedEscape, start)))
      else go ch 1

/-- Read on in a quoted scalar up to the closing quote. -/
def readQuotedFrom (single : Bool) (start : Mark) :
    Nat → List Char → Cursor → Except Fault ScalarRead
  | 0, _, c => .error (c.fault .unexpectedEnd (some (.quotedScalar, start)))
  | fuel + 1, text, c => do
    if c.atDocumentIndicator then
      throw (c.fault .documentIndicatorInScalar (some (.quotedScalar, start)))
    if c.atEnd then throw (c.fault .unexpectedEnd (some (.quotedScalar, start)))
    let (word, c, broken) ← readQuotedWord single start (c.rest.length + 1) c
    let text := text ++ word
    if c.peek = some (if single then '\'' else '"') then
      let c := c.skip 1
      return { text, stop := c.mark, cursor := c }
    match Spacing.read none (c.rest.length + 1) { broken } c with
    | .error c => throw (c.fault .tabViolatesIndentation (some (.quotedScalar, start)))
    | .ok (s, c) => readQuotedFrom single start fuel (text ++ s.fold) c

/-- A quoted scalar that starts at the cursor. -/
def readQuoted (single : Bool) (c : Cursor) : Except Fault ScalarRead :=
  readQuotedFrom single c.mark (c.rest.length + 1) [] (c.skip 1)

/-! ## Plain scalars -/

/-- The indicators of flow collections. -/
def isFlowIndicator (c : Char) : Bool := [',', '[', ']', '{', '}'].contains c

/-- The characters of a plain scalar up to white space or an indicator that ends it, and
whether a colon stands there that must not. -/
def plainWord (inFlow : Bool) : List Char → List Char × Bool
  | [] => ([], false)
  | c :: rest =>
    if isBlank c || isBreak c then ([], false)
    else
      let next := rest.head?
      if inFlow && c == ':' && (next.map fun d => isFlowIndicator d || d == '?').getD false then
        ([], true)
      else if (c == ':' && isGap next) || (inFlow && isFlowIndicator c) then ([], false)
      else
        let (word, bad) := plainWord inFlow rest
        (c :: word, bad)

/-- Read on in a plain scalar: `s` is the white space before the cursor and `stop` the
place behind the last word. -/
def readPlainFrom (inFlow : Bool) (indent : Int) (start : Mark) :
    Nat → List Char → Spacing → Mark → Cursor → Except Fault ScalarRead
  | 0, text, s, stop, c => .ok { text, stop, cursor := c, brokeLine := s.broken }
  | fuel + 1, text, s, stop, c =>
    if c.atDocumentIndicator || c.peek == some '#' then
      .ok { text, stop, cursor := c, brokeLine := s.broken }
    else
      let (word, bad) := plainWord inFlow c.rest
      let c := c.skip word.length
      if bad then .error (c.fault .unexpectedColon (some (.plainScalar, start)))
      else
        let (text, s, stop) :=
          if word.isEmpty then (text, s, stop) else (text ++ s.fold ++ word, {}, c.mark)
        match c.peek with
        | none => .ok { text, stop, cursor := c, brokeLine := s.broken }
        | some ch =>
          if !(isBlank ch || isBreak ch) then
            .ok { text, stop, cursor := c, brokeLine := s.broken }
          else
            match Spacing.read (some indent) (c.rest.length + 1) s c with
            | .error c => .error (c.fault .tabViolatesIndentation (some (.plainScalar, start)))
            | .ok (s, c) =>
              if !inFlow && decide ((c.column : Int) < indent) then
                .ok { text, stop, cursor := c, brokeLine := s.broken }
              else readPlainFrom inFlow indent start fuel text s stop c

/-- A plain scalar that starts at the cursor; in a block it must be indented by
`indent`. -/
def readPlain (inFlow : Bool) (indent : Int) (c : Cursor) : Except Fault ScalarRead :=
  readPlainFrom inFlow indent c.mark (c.rest.length + 1) [] {} c.mark c

/-! ## Block scalars -/

/-- What becomes of the line breaks at the end of a block scalar. -/
inductive Chomping where
  | strip | clip | keep
  deriving DecidableEq, Repr

/-- The chomping that a sign stands for. -/
def chompingOf : Option Char → Option Chomping
  | some '+' => some .keep
  | some '-' => some .strip
  | _ => none

/-- Chomping and indentation behind the indicator of a block scalar, in any order. -/
def readBlockHeader (start : Mark) (c : Cursor) :
    Except Fault (Chomping × Option Nat × Cursor) := do
  let digit (c : Cursor) : Except Fault (Option Nat × Cursor) :=
    match c.peek with
    | some d =>
      if d.isDigit then
        if d = '0' then throw (c.fault .zeroIndentation (some (.blockScalar, start)))
        else pure (some (d.toNat - 48), c.skip 1)
      else pure (none, c)
    | none => pure (none, c)
  match chompingOf c.peek with
  | some chomping => do
    let (n, c) ← digit (c.skip 1)
    return (chomping, n, c)
  | none => do
    let (n, c) ← digit c
    match n, chompingOf c.peek with
    | some n, some chomping => return (chomping, some n, c.skip 1)
    | n, _ => return (.clip, n, c)

/-- Blank lines of a block scalar and the indentation of the next line, up to `indent`
columns when that is known. The line breaks, the greatest column reached, and the place
behind the last break are found as well. -/
def readBlockBreaks (start : Mark) (indent : Option Nat) :
    Nat → List Char → Nat → Mark → Cursor → Except Fault (List Char × Nat × Mark × Cursor)
  | 0, breaks, widest, stop, c => .ok (breaks, widest, stop, c)
  | fuel + 1, breaks, widest, stop, c =>
    let room := (c.rest.takeWhile (· == ' ')).length
    let c := c.skip (match indent with
      | none => room
      | some n => min room (n - c.column))
    let widest := max widest c.column
    let short := (indent.map fun n => decide (c.column < n)).getD true
    if short && c.peek == some '\t' then
      .error (c.fault .tabInIndentation (some (.blockScalar, start)))
    else if (c.peek.map isBreak).getD false then
      let (br, c) := c.readBreak
      readBlockBreaks start indent fuel (breaks ++ br) widest c.mark c
    else .ok (breaks, widest, stop, c)

/-- Whether a character is a blank. -/
def startsBlank (c : Cursor) : Bool := (c.peek.map isBlank).getD false

/-- What stands for the break between two lines of a block scalar and the blank lines
behind it. In a folded one a line feed between two lines that do not start with a blank
is a blank, or nothing when blank lines follow. -/
def joinBlock (isLiteral : Bool) (lead further : List Char) (afterBlank beforeBlank : Bool) :
    List Char :=
  if !isLiteral && lead.head? == some '\n' && !afterBlank && !beforeBlank then
    if further.isEmpty then [' '] else further
  else lead ++ further

/-- Read on in a block scalar at the start of a line. -/
def readBlockLines (isLiteral : Bool) (start : Mark) (indent : Nat) :
    Nat → List Char → List Char → List Char → Bool → Mark → Cursor →
      Except Fault (List Char × List Char × List Char × Mark × Cursor)
  | 0, text, lead, further, _, stop, c => .ok (text, lead, further, stop, c)
  | fuel + 1, text, lead, further, afterBlank, stop, c =>
    if c.column = indent ∧ !c.atEnd then do
      let beforeBlank := startsBlank c
      let text := text ++ joinBlock isLiteral lead further afterBlank beforeBlank
      let (line, c) := c.readWhile fun ch => !isBreak ch
      let (lead, c) := c.readBreak
      let (further, _, stop, c) ←
        readBlockBreaks start (some indent) (c.rest.length + 1) [] 0 c.mark c
      readBlockLines isLiteral start indent fuel (text ++ line) lead further beforeBlank stop c
    else .ok (text, lead, further, stop, c)

/-- A block scalar that starts at the cursor, inside a block indented by `parent`. -/
def readBlock (isLiteral : Bool) (parent : Int) (c : Cursor) : Except Fault ScalarRead := do
  let start := c.mark
  let (chomping, increment, c) ← readBlockHeader start (c.skip 1)
  let c := c.skipWhile isBlank
  let c := if c.peek = some '#' then c.skipLine else c
  if !isLineEnd c.peek then
    throw (c.fault .missingCommentOrBreak (some (.blockScalar, start)))
  let c := c.skipBreak
  let known := increment.map fun n => if 0 ≤ parent then parent.toNat + n else n
  let (further, widest, stop, c) ←
    readBlockBreaks start known (c.rest.length + 1) [] 0 c.mark c
  let indent := known.getD (max (max widest (parent + 1).toNat) 1)
  let (text, lead, further, stop, c) ←
    readBlockLines isLiteral start indent (c.rest.length + 1) [] [] further false stop c
  let tail := match chomping with
    | .strip => []
    | .clip => lead
    | .keep => lead ++ further
  return { text := text ++ tail, stop, cursor := c }

end Distill.Yaml
