import Distill.Yaml.ScalarText

/-!
# The tokens of a YAML text

Tokens are found one after another, but the tokens that open a block mapping are known
only when a colon follows its first key: so tokens wait in a queue as long as they may
turn out to be a key.

## Main definitions

* `Yaml.Scan` — the state between two tokens.
* `Yaml.TokenStream` — the tokens that are found, and the fault that ends them, if any.
* `Yaml.TokenStream.ofText` — the tokens of a text.
-/

namespace Distill.Yaml

/-- A place where a key without an indicator may have started. -/
structure SimpleKey where
  possible : Bool := false
  /-- Nothing else can stand there. -/
  required : Bool := false
  /-- The number of its first token. -/
  number : Nat := 0
  mark : Mark := {}
  deriving Repr, Inhabited

/-- The state between two tokens. -/
structure Scan where
  cursor : Cursor
  /-- Tokens that wait. -/
  queue : List Token := []
  /-- How many tokens have left the queue. -/
  taken : Nat := 0
  /-- The indentation of the block, `-1` outside all blocks. -/
  indent : Int := -1
  /-- The indentations of the blocks around it. -/
  outer : List Int := []
  /-- How many flow collections are open. -/
  flow : Nat := 0
  /-- The possible keys, one for each open flow collection before that of the block. -/
  keys : List SimpleKey := [{}]
  keyAllowed : Bool := true
  ended : Bool := false
  deriving Repr, Inhabited

namespace Scan

/-- Put a token at the end of the queue. -/
def push (s : Scan) (content : Content) (start stop : Mark) : Scan :=
  { s with queue := s.queue ++ [⟨content, start, stop⟩] }

/-- A fault at the cursor. -/
def fail {α : Type} (s : Scan) (p : Problem) (context : Option (Activity × Mark) := none) :
    Except Fault α := .error (s.cursor.fault p context)

/-! ## Possible keys -/

/-- The fault of a key that has to be there and is not one. -/
def keyFault (s : Scan) (k : SimpleKey) : Fault :=
  s.cursor.fault .missingColon (some (.simpleKey, k.mark))

/-- Give up the possible key of the innermost collection. -/
def dropKey (s : Scan) : Except Fault Scan :=
  match s.keys with
  | [] => .ok s
  | k :: rest =>
    if k.possible && k.required then .error (s.keyFault k)
    else .ok { s with keys := { k with possible := false } :: rest }

/-- Note that a key may start at the cursor. -/
def saveKey (s : Scan) : Except Fault Scan :=
  if s.keyAllowed then do
    let s ← s.dropKey
    let k : SimpleKey :=
      { possible := true
        required := s.flow == 0 && s.indent == (s.cursor.column : Int)
        number := s.taken + s.queue.length
        mark := s.cursor.mark }
    return { s with keys := k :: s.keys.tail }
  else .ok s

/-- Whether a possible key is on an earlier line or more than 1024 characters back. -/
def isStale (s : Scan) (k : SimpleKey) : Bool :=
  k.possible && (k.mark.line < s.cursor.mark.line || k.mark.index + 1024 < s.cursor.mark.index)

/-- Give up the possible keys that are too far back. The outermost is looked at first. -/
def dropStaleKeys (s : Scan) : Except Fault Scan :=
  match s.keys.reverse.find? fun k => s.isStale k && k.required with
  | some k => .error (s.keyFault k)
  | none =>
    let keys := s.keys.map fun k => if s.isStale k then { k with possible := false } else k
    .ok { s with keys }

/-! ## Indentation -/

/-- Open a block at a column deeper than the indentation; its token goes to the end of
the queue or before the token of a number. -/
def roll (s : Scan) (column : Nat) (number : Option Nat) (content : Content) (mark : Mark) : Scan :=
  if s.flow = 0 ∧ s.indent < (column : Int) then
    let token : Token := ⟨content, mark, mark⟩
    { s with
      outer := s.indent :: s.outer
      indent := column
      queue := match number with
        | none => s.queue ++ [token]
        | some n => s.queue.insertIdx (n - s.taken) token }
  else s

/-- The tokens that close blocks deeper than a column, with the indentations left. -/
def unrollFrom (column : Int) (mark : Mark) : Int → List Int → List Token × Int × List Int
  | indent, [] => ([], indent, [])
  | indent, i :: outer =>
    if column < indent then
      let (ts, r) := unrollFrom column mark i outer
      (⟨.blockEnd, mark, mark⟩ :: ts, r)
    else ([], indent, i :: outer)

/-- Close the blocks deeper than a column. -/
def unroll (s : Scan) (column : Int) : Scan :=
  if s.flow = 0 then
    let (ts, indent, outer) := unrollFrom column s.cursor.mark s.indent s.outer
    { s with queue := s.queue ++ ts, indent, outer }
  else s

/-! ## White space and comments -/

/-- Go on to the next token. A tab counts as white space where no key may start; a new
line lets keys start again in a block. -/
def toNextToken : Nat → Scan → Scan
  | 0, s => s
  | fuel + 1, s =>
    let c := if s.cursor.mark.index = 0 ∧ s.cursor.peek = some '\uFEFF' then s.cursor.skip 1
      else s.cursor
    let tabs := s.flow != 0 || !s.keyAllowed
    let c := c.skipWhile fun ch => ch == ' ' || (tabs && ch == '\t')
    let c := if c.peek = some '#' then c.skipLine else c
    if (c.peek.map isBreak).getD false then
      toNextToken fuel
        { s with cursor := c.skipBreak, keyAllowed := s.keyAllowed || s.flow == 0 }
    else { s with cursor := c }

/-! ## Directives -/

/-- A number of at most nine digits. -/
def readVersionNumber (start : Mark) (c : Cursor) : Except Fault (Nat × Cursor) :=
  let ds := c.rest.takeWhile Char.isDigit
  if 9 < ds.length then
    .error ((c.skip 9).fault .longVersionNumber (some (.versionDirective, start)))
  else if ds.isEmpty then .error (c.fault .missingVersionNumber (some (.versionDirective, start)))
  else .ok (ds.foldl (fun n d => 10 * n + (d.toNat - 48)) 0, c.skip ds.length)

/-- The handle of a tag: bangs with a name between them, or one bang with a name or
without. In a directive it ends in a bang. -/
def readTagHandle (directive : Bool) (start : Mark) (c : Cursor) :
    Except Fault (List Char × Cursor) :=
  let activity := if directive then Activity.tagDirectiveHandle else .tag
  if c.peek ≠ some '!' then .error (c.fault .missingBang (some (activity, start)))
  else
    let (name, c) := (c.skip 1).readWhile isNameChar
    if c.peek = some '!' then .ok ('!' :: (name ++ ['!']), c.skip 1)
    else if directive && !name.isEmpty then
      .error (c.fault .missingBang (some (.tagDirectiveBang, start)))
    else .ok ('!' :: name, c)

/-- The characters of tags that stand for themselves; brackets and commas do so only
between angle brackets and in directives. -/
def isUriChar (wide : Bool) (c : Char) : Bool :=
  isNameChar c
    || [';', '/', '?', ':', '@', '&', '=', '+', '$', '.', '!', '~', '*', '\'', '(', ')'].contains c
    || (wide && [',', '[', ']'].contains c)

/-- One octet written as a percent sign and two digits. -/
def readUriOctet (context : Activity × Mark) (c : Cursor) : Except Fault (Nat × Cursor) :=
  match c.rest with
  | '%' :: a :: b :: _ =>
    match hexValue? 2 [a, b] with
    | some n => .ok (n, c.skip 3)
    | none => .error (c.fault .missingUriOctet (some context))
  | _ => .error (c.fault .missingUriOctet (some context))

/-- The octets that continue a character. -/
def readUriTail (context : Activity × Mark) : Nat → Nat → Cursor → Except Fault (Nat × Cursor)
  | 0, v, c => .ok (v, c)
  | n + 1, v, c => do
    let (o, c') ← readUriOctet context c
    if o / 64 ≠ 2 then throw (c.fault .badTrailingOctet (some context))
    readUriTail context n (v * 64 + o % 64) c'

/-- A character written as the octets of its UTF-8 form. -/
def readUriEscape (context : Activity × Mark) (c : Cursor) : Except Fault (Char × Cursor) := do
  let (o, c') ← readUriOctet context c
  if o < 0x80 then return (Char.ofNat o, c')
  let (n, v) ←
    if o / 32 = 6 then pure (1, o % 32)
    else if o / 16 = 14 then pure (2, o % 16)
    else if o / 8 = 30 then pure (3, o % 8)
    else throw (c.fault .badLeadingOctet (some context))
  let (v, c) ← readUriTail context n v c'
  return (Char.ofNat v, c)

/-- The characters of a tag. -/
def readUriChars (wide : Bool) (context : Activity × Mark) :
    Nat → Cursor → Except Fault (List Char × Cursor)
  | 0, c => .ok ([], c)
  | fuel + 1, c =>
    match c.peek with
    | some ch =>
      if ch = '%' then do
        let (e, c) ← readUriEscape context c
        let (cs, c) ← readUriChars wide context fuel c
        return (e :: cs, c)
      else if isUriChar wide ch then do
        let (cs, c) ← readUriChars wide context fuel (c.skip 1)
        return (ch :: cs, c)
      else .ok ([], c)
    | none => .ok ([], c)

/-- A tag, of which `head` has been read already. -/
def readTagUri (wide directive : Bool) (head : List Char) (start : Mark) (c : Cursor) :
    Except Fault (List Char × Cursor) := do
  let activity := if directive then Activity.tagDirectiveStem else .tagUri
  let (cs, c) ← readUriChars wide (activity, start) (c.rest.length + 1) c
  if head.isEmpty && cs.isEmpty then throw (c.fault .missingTagUri (some (activity, start)))
  return (head.drop 1 ++ cs, c)

/-- What a directive says, after its name. -/
def readDirectiveValue (name : List Char) (start : Mark) (c : Cursor) :
    Except Fault (Content × Cursor) := do
  let c₀ := c.skipWhile isBlank
  if name = ['Y', 'A', 'M', 'L'] then do
    let (major, c) ← readVersionNumber start c₀
    if c.peek ≠ some '.' then
      throw (c.fault .missingDigitOrDot (some (.versionDirective, start)))
    let (minor, c) ← readVersionNumber start (c.skip 1)
    return (.versionDirective major minor, c)
  else if name = ['T', 'A', 'G'] then do
    let (handle, c) ← readTagHandle true start c₀
    if !(c.peek.map isBlank).getD false then
      throw (c.fault .missingWhitespace (some (.tagDirectiveLine, start)))
    let (stem, c) ← readTagUri true true [] start (c.skipWhile isBlank)
    if !isGap c.peek then
      throw (c.fault .missingWhitespaceOrBreak (some (.tagDirectiveLine, start)))
    return (.tagDirective (String.ofList handle) (String.ofList stem), c)
  else throw (c.fault .unknownDirective (some (.directive, start)))

/-- A directive that starts at the cursor, with the place where it stops. -/
def readDirective (c : Cursor) : Except Fault (Content × Mark × Cursor) := do
  let start := c.mark
  let (name, c) := (c.skip 1).readWhile isNameChar
  if name.isEmpty then throw (c.fault .missingDirectiveName (some (.directive, start)))
  if !isGap c.peek then throw (c.fault .nonAlphabeticDirective (some (.directive, start)))
  let (content, c) ← readDirectiveValue name start c
  let stop := c.mark
  let c := c.skipWhile isBlank
  let c := if c.peek = some '#' then c.skipLine else c
  if !isLineEnd c.peek then
    throw (c.fault .missingCommentOrBreak (some (.directive, start)))
  return (content, stop, c.skipBreak)

/-! ## Anchors and tags -/

/-- The name of an anchor or an alias that starts at the cursor. -/
def readAnchor (activity : Activity) (c : Cursor) : Except Fault (String × Cursor) :=
  let start := c.mark
  let (name, c) := (c.skip 1).readWhile isNameChar
  let ends := isGap c.peek ||
    (c.peek.map ['?', ':', ',', ']', '}', '%', '@', '\x60'].contains).getD false
  if name.isEmpty || !ends then
    .error (c.fault .missingAnchorCharacter (some (activity, start)))
  else .ok (String.ofList name, c)

/-- A tag that starts at the cursor: its handle and the rest of it. -/
def readTag (inFlow : Bool) (c : Cursor) : Except Fault (Content × Cursor) := do
  let start := c.mark
  let ((handle, suffix), c) ←
    if c.ahead 1 = some '<' then do
      let (uri, c) ← readTagUri true false [] start (c.skip 2)
      if c.peek ≠ some '>' then throw (c.fault .missingTagEnd (some (.tag, start)))
      pure ((([] : List Char), uri), c.skip 1)
    else do
      let (handle, c) ← readTagHandle false start c
      if 1 < handle.length ∧ handle.getLast? = some '!' then do
        let (uri, c) ← readTagUri false false [] start c
        pure ((handle, uri), c)
      else do
        let (uri, c) ← readTagUri false false handle start c
        pure (if uri.isEmpty then ([], ['!']) else (['!'], uri), c)
  if !isGap c.peek && !(inFlow && c.peek == some ',') then
    throw (c.fault .missingWhitespaceOrBreak (some (.tag, start)))
  return (.tag (String.ofList handle) (String.ofList suffix), c)

/-! ## One token -/

/-- A token of some characters, with keys allowed behind it or not. -/
def take (s : Scan) (content : Content) (n : Nat) (keyAllowed : Bool) : Scan :=
  let start := s.cursor.mark
  let c := s.cursor.skip n
  { s.push content start c.mark with cursor := c, keyAllowed }

/-- The end of the text. -/
def fetchEnd (s : Scan) : Except Fault Scan := do
  let m := s.cursor.mark
  let m := if m.column = 0 then m else { m with line := m.line + 1, column := 0 }
  let s := { s with cursor := { s.cursor with mark := m } }
  let s ← (s.unroll (-1)).dropKey
  return { s.push .streamEnd m m with keyAllowed := false, ended := true }

/-- A document indicator. -/
def fetchDocumentIndicator (s : Scan) (content : Content) : Except Fault Scan := do
  let s ← (s.unroll (-1)).dropKey
  return s.take content 3 false

/-- A directive. -/
def fetchDirective (s : Scan) : Except Fault Scan := do
  let s ← (s.unroll (-1)).dropKey
  let (content, stop, c) ← readDirective s.cursor
  return { s.push content s.cursor.mark stop with cursor := c, keyAllowed := false }

/-- The start of a flow collection. -/
def fetchFlowStart (s : Scan) (content : Content) : Except Fault Scan := do
  let s ← s.saveKey
  return { s with keys := {} :: s.keys, flow := s.flow + 1 }.take content 1 true

/-- The end of a flow collection. -/
def fetchFlowEnd (s : Scan) (content : Content) : Except Fault Scan := do
  let s ← s.dropKey
  let s := if s.flow = 0 then s else { s with flow := s.flow - 1, keys := s.keys.tail }
  return s.take content 1 false

/-- A comma in a flow collection. -/
def fetchFlowEntry (s : Scan) : Except Fault Scan := do
  let s ← s.dropKey
  return s.take .flowEntry 1 true

/-- A dash before an entry of a block sequence. -/
def fetchBlockEntry (s : Scan) : Except Fault Scan := do
  if s.flow = 0 ∧ !s.keyAllowed then s.fail .entriesNotAllowed
  let s := s.roll s.cursor.column none .blockSequenceStart s.cursor.mark
  let s ← s.dropKey
  return s.take .blockEntry 1 true

/-- A question mark before a key. -/
def fetchKey (s : Scan) : Except Fault Scan := do
  if s.flow = 0 ∧ !s.keyAllowed then s.fail .keysNotAllowed
  let s := s.roll s.cursor.column none .blockMappingStart s.cursor.mark
  let s ← s.dropKey
  return s.take .key 1 (s.flow == 0)

/-- A colon before a value. When a key was possible, its indicator is put before it. -/
def fetchValue (s : Scan) : Except Fault Scan := do
  match s.keys with
  | k :: rest =>
    if k.possible then
      let s := { s with queue := s.queue.insertIdx (k.number - s.taken) ⟨.key, k.mark, k.mark⟩ }
      let s := s.roll k.mark.column (some k.number) .blockMappingStart k.mark
      return { s with keys := { k with possible := false } :: rest }.take .value 1 false
  | [] => pure ()
  if s.flow = 0 ∧ !s.keyAllowed then s.fail .valuesNotAllowed
  let s := s.roll s.cursor.column none .blockMappingStart s.cursor.mark
  return s.take .value 1 (s.flow == 0)

/-- An anchor or an alias. -/
def fetchAnchor (s : Scan) (isAlias : Bool) : Except Fault Scan := do
  let s ← s.saveKey
  let (name, c) ← readAnchor (if isAlias then .reference else .anchor) s.cursor
  let content := if isAlias then Content.reference name else .anchor name
  return { s.push content s.cursor.mark c.mark with cursor := c, keyAllowed := false }

/-- A tag. -/
def fetchTag (s : Scan) : Except Fault Scan := do
  let s ← s.saveKey
  let (content, c) ← readTag (s.flow != 0) s.cursor
  return { s.push content s.cursor.mark c.mark with cursor := c, keyAllowed := false }

/-- A scalar that has been read. -/
def pushScalar (s : Scan) (r : ScalarRead) (style : Style) (keyAllowed : Bool) : Scan :=
  { s.push (.scalar (String.ofList r.text) style) s.cursor.mark r.stop with
    cursor := r.cursor, keyAllowed }

/-- A block scalar. -/
def fetchBlockScalar (s : Scan) (isLiteral : Bool) : Except Fault Scan := do
  let s ← s.dropKey
  let r ← readBlock isLiteral s.indent s.cursor
  return s.pushScalar r (if isLiteral then .literal else .folded) true

/-- A quoted scalar. -/
def fetchQuoted (s : Scan) (single : Bool) : Except Fault Scan := do
  let s ← s.saveKey
  let r ← readQuoted single s.cursor
  return s.pushScalar r (if single then .singleQuoted else .doubleQuoted) false

/-- A plain scalar. -/
def fetchPlain (s : Scan) : Except Fault Scan := do
  let s ← s.saveKey
  let r ← readPlain (s.flow != 0) (s.indent + 1) s.cursor
  return s.pushScalar r .plain r.brokeLine

/-- Whether a plain scalar may start with a character before another one. -/
def startsPlain (inFlow : Bool) (c : Char) (next : Option Char) : Bool :=
  !(isBlank c || isBreak c
      || ['-', '?', ':', ',', '[', ']', '{', '}', '#', '&', '*', '!', '|', '>', '\'', '"', '%',
          '@', '\x60'].contains c)
    || (c == '-' && !(next.map isBlank).getD false)
    || (!inFlow && (c == '?' || c == ':') && !isGap next)

/-- The next tokens of the text. -/
def fetch (s : Scan) : Except Fault Scan := do
  let s := toNextToken (s.cursor.rest.length + 1) s
  let s ← s.dropStaleKeys
  let s := s.unroll s.cursor.column
  let c := s.cursor
  let inFlow := s.flow != 0
  match c.peek with
  | none => s.fetchEnd
  | some ch =>
    let next := c.ahead 1
    if c.column = 0 ∧ ch = '%' then s.fetchDirective
    else if c.column = 0 ∧ c.startsWord ['-', '-', '-'] then
      s.fetchDocumentIndicator .documentStart
    else if c.column = 0 ∧ c.startsWord ['.', '.', '.'] then s.fetchDocumentIndicator .documentEnd
    else if ch = '[' then s.fetchFlowStart .flowSequenceStart
    else if ch = '{' then s.fetchFlowStart .flowMappingStart
    else if ch = ']' then s.fetchFlowEnd .flowSequenceEnd
    else if ch = '}' then s.fetchFlowEnd .flowMappingEnd
    else if ch = ',' then s.fetchFlowEntry
    else if ch = '-' ∧ isGap next then s.fetchBlockEntry
    else if ch = '?' ∧ (inFlow || isGap next) then s.fetchKey
    else if ch = ':' ∧ (inFlow || isGap next) then s.fetchValue
    else if ch = '*' then s.fetchAnchor true
    else if ch = '&' then s.fetchAnchor false
    else if ch = '!' then s.fetchTag
    else if ch = '|' ∧ !inFlow then s.fetchBlockScalar true
    else if ch = '>' ∧ !inFlow then s.fetchBlockScalar false
    else if ch = '\'' then s.fetchQuoted true
    else if ch = '"' then s.fetchQuoted false
    else if startsPlain inFlow ch next then s.fetchPlain
    else s.fail .cannotStartToken (some (.nextToken, c.mark))

/-! ## All tokens -/

/-- Whether the first token of the queue may still turn out to be a key. -/
def headIsOpen (s : Scan) : Bool := s.keys.any fun k => k.possible && k.number == s.taken

/-- Fetch tokens until the first of the queue is settled. -/
def settle : Nat → Scan → Except Fault Scan
  | 0, s => .ok s
  | fuel + 1, s =>
    if s.queue.isEmpty then do
      let s ← s.fetch
      settle fuel s
    else do
      let s ← s.dropStaleKeys
      if s.headIsOpen && !s.ended then do
        let s ← s.fetch
        settle fuel s
      else return s

end Scan

/-- The tokens that are found in a text, and the fault that ends them. Without a fault
the last token is the end of the stream. -/
structure TokenStream where
  tokens : List Token
  fault : Option Fault
  deriving Repr, Inhabited

namespace TokenStream

/-- The tokens from a state on. -/
def collect : Nat → Scan → TokenStream
  | 0, _ => ⟨[], none⟩
  | fuel + 1, s =>
    match s.settle (s.cursor.rest.length + 3) with
    | .error f => ⟨[], some f⟩
    | .ok s =>
      match s.queue with
      | [] => ⟨[], none⟩
      | t :: queue =>
        if t.content = .streamEnd then ⟨[t], none⟩
        else
          let more := collect fuel { s with queue, taken := s.taken + 1 }
          { more with tokens := t :: more.tokens }

/-- Whether a character may stand in a text. -/
def isAllowed (c : Char) : Bool :=
  let n := c.toNat
  n == 0x09 || n == 0x0A || n == 0x0D || (0x20 ≤ n && n ≤ 0x7E) || n == 0x85
    || (0xA0 ≤ n && n ≤ 0xFFFD) || 0x10000 ≤ n

/-- How many octets stand before the first character that may not stand in a text. -/
def firstControl (before : Nat) : List Char → Option Nat
  | [] => none
  | c :: rest => if isAllowed c then firstControl (before + c.utf8Size) rest else some before

/-- The tokens of a text. A byte order mark at its start is no part of it. A key adds at
most two tokens of its own and every other token takes a character, apart from the ends
of blocks, of which there are no more than starts. -/
def ofText (s : String) : TokenStream :=
  let cs := s.toList
  let first : Token := ⟨.streamStart, {}, {}⟩
  match firstControl 0 cs with
  | some n => ⟨[first], some ⟨.controlCharacter, .octet n, none⟩⟩
  | none =>
    let body := if cs.head? = some '\uFEFF' then cs.tail else cs
    let more := collect (5 * cs.length + 5) { cursor := { rest := body }, taken := 1 }
    { more with tokens := first :: more.tokens }

end TokenStream

end Distill.Yaml
