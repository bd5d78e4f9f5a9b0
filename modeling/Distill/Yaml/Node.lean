import Distill.Yaml.TokenStream

/-!
# The nodes of YAML documents

A text that ends in a fault still has the nodes before it: what is read of them may
show another error first. So a tree of nodes has a place for what is missing, and
collections tell whether their end was found.

## Main definitions

* `Yaml.Node` — scalars, collections and aliases as they stand in a text.
* `Yaml.Document` — a root, and why the text could not be read further, if so.
* `Yaml.documents` — the documents of a text, up to the first that has a fault.
-/

namespace Distill.Yaml

/-- What all nodes but aliases have: a tag, the number of an anchor, a place. -/
structure NodeInfo where
  tag : Option String := none
  anchor : Option Nat := none
  mark : Mark
  deriving DecidableEq, Repr, Inhabited

/-- A node as it stands in a text. -/
inductive Node where
  /-- The text ends before the node. -/
  | missing
  /-- The content of a text without documents. -/
  | void (mark : Mark)
  /-- The node with the anchor of a number. -/
  | reference (id : Nat)
  | scalar (info : NodeInfo) (text : String) (style : Style)
  | sequence (info : NodeInfo) (items : List Node) (closed : Bool)
  | mapping (info : NodeInfo) (entries : List (Node × Node)) (closed : Bool)
  deriving Repr, Inhabited

/-- Why a document cannot be read further. -/
inductive Stop where
  | fault (f : Fault)
  | unknownAnchor (mark : Mark)
  deriving DecidableEq, Repr

/-- A document. -/
structure Document where
  root : Node
  stop : Option Stop := none
  deriving Repr, Inhabited

/-! ## The tokens still to be read -/

/-- What is left of the tokens, and what is known of the document. -/
structure Feed where
  tokens : List Token
  /-- What ends the tokens. -/
  fault : Option Fault
  /-- The handles of tags that directives define. -/
  handles : List (String × String) := []
  /-- The anchors met, with their numbers. -/
  anchors : List (String × Nat) := []
  deriving Repr, Inhabited

namespace Feed

/-- The next token, or why there is none. -/
def peek (s : Feed) : Except Stop Token :=
  match s.tokens, s.fault with
  | t :: _, _ => .ok t
  | [], some f => .error (.fault f)
  | [], none => .error (.fault ⟨.unexpectedEnd, .mark {}, none⟩)

/-- Go on behind the next token. -/
def next (s : Feed) : Feed := { s with tokens := s.tokens.tail }

/-- Number an anchor. A name used again takes the number of the names so far, which the
next new name takes as well. -/
def register (s : Feed) (name : String) : Nat × Feed :=
  let id := s.anchors.length
  (id, { s with anchors := (name, id) :: s.anchors.filter (·.1 != name) })

end Feed

/-- A problem at a token. -/
def problemAt (t : Token) (p : Problem) (activity : Activity) (start : Mark) : Stop :=
  .fault ⟨p, .mark t.start, some (activity, start)⟩

/-- The handle of the tags of the standard. -/
def standardStem : String := "tag:yaml.org,2002:"

/-- The scalar that stands for nothing. -/
def emptyScalar (mark : Mark) : Node := .scalar { mark } "" .plain

/-! ## Properties of nodes -/

/-- The anchor and the tag before a node, in any order, with their places. -/
structure Properties where
  anchor : Option String := none
  tag : Option (String × String × Mark) := none
  start : Option Mark := none

/-- Read at most `n` properties, each kind once. -/
def readProperties : Nat → Properties → Feed → Except Stop (Properties × Feed)
  | 0, p, s => .ok (p, s)
  | n + 1, p, s => do
    let t ← s.peek
    match t.content with
    | .anchor name =>
      if p.anchor.isSome then return (p, s)
      readProperties n
        { p with anchor := some name, start := some (p.start.getD t.start) } s.next
    | .tag handle suffix =>
      if p.tag.isSome then return (p, s)
      let start := some (p.start.getD t.start)
      readProperties n { p with tag := some (handle, suffix, t.start), start } s.next
    | _ => return (p, s)

/-- The tag that a handle and a suffix stand for. -/
def resolveTag (s : Feed) (start : Mark) (tag : Option (String × String × Mark)) :
    Except Stop (Option String) :=
  match tag with
  | none => .ok none
  | some (handle, suffix, mark) =>
    if handle.isEmpty then .ok (some suffix)
    else match s.handles.lookup handle with
      | some stem => .ok (some (stem ++ suffix))
      | none => .error (.fault ⟨.undefinedTagHandle, .mark mark, some (.node, start)⟩)

/-! ## Nodes

Every reader gives what it has read, and either the tokens that follow or why it
stopped. -/

/-- What comes after a value has been read. -/
abbrev Rest := Except Stop Feed

/-- Whether a token is one of some kinds. -/
def Token.isOneOf (t : Token) (cs : List Content) : Bool := cs.contains t.content

mutual

/-- A node; in a block, block collections may stand there, and at the indentation of a
mapping a sequence may stand without indentation of its own. -/
def readNode : Nat → Bool → Bool → Feed → Node × Rest
  | 0, _, _, s => (.missing, .ok s)
  | fuel + 1, block, indentless, s =>
    match s.peek with
    | .error e => (.missing, .error e)
    | .ok t =>
      match t.content with
      | .reference name =>
        match s.anchors.lookup name with
        | some id => (.reference id, .ok s.next)
        | none => (.missing, .error (.unknownAnchor t.start))
      | _ =>
        match readProperties 2 {} s with
        | .error e => (.missing, .error e)
        | .ok (p, s) =>
          match s.peek with
          | .error e => (.missing, .error e)
          | .ok t =>
            let start := p.start.getD t.start
            match resolveTag s start p.tag with
            | .error e => (.missing, .error e)
            | .ok tag =>
              let content := readContent fuel block indentless start tag p.anchor
              content t s

/-- The content of a node behind its properties. -/
def readContent : Nat → Bool → Bool → Mark → Option String → Option String → Token → Feed →
    Node × Rest
  | 0, _, _, _, _, _, _, s => (.missing, .ok s)
  | fuel + 1, block, indentless, start, tag, anchor, t, s =>
    let register (s : Feed) : Option Nat × Feed :=
      match anchor with
      | some name => let (id, s) := s.register name; (some id, s)
      | none => (none, s)
    let (id, s') := register s
    let info : NodeInfo := { tag, anchor := id, mark := start }
    let activity := if block then Activity.blockNode else .flowNode
    let sequence (r : (List Node × Bool) × Rest) : Node × Rest :=
      (.sequence info r.1.1 r.1.2, r.2)
    let mapping (r : (List (Node × Node) × Bool) × Rest) : Node × Rest :=
      (.mapping info r.1.1 r.1.2, r.2)
    match t.content with
    | .blockEntry =>
      if indentless then sequence (readIndentless fuel s')
      else if anchor.isSome || tag.isSome then (.scalar info "" .plain, .ok s')
      else
        (.missing, .error (problemAt t .missingNodeContent activity start))
    | .scalar text style =>
      let tag := if tag = some "!" then none else tag
      (.scalar { info with tag } text style, .ok s'.next)
    | .flowSequenceStart => sequence (readFlowItems fuel true t.start s'.next)
    | .flowMappingStart => mapping (readFlowPairs fuel true t.start s'.next)
    | .blockSequenceStart =>
      if block then sequence (readBlockItems fuel t.start s'.next)
      else if anchor.isSome || tag.isSome then (.scalar info "" .plain, .ok s')
      else (.missing, .error (problemAt t .missingNodeContent .flowNode start))
    | .blockMappingStart =>
      if block then mapping (readBlockPairs fuel t.start s'.next)
      else if anchor.isSome || tag.isSome then (.scalar info "" .plain, .ok s')
      else (.missing, .error (problemAt t .missingNodeContent .flowNode start))
    | _ =>
      if anchor.isSome || tag.isSome then (.scalar info "" .plain, .ok s')
      else
        (.missing, .error (problemAt t .missingNodeContent activity start))

/-- A node, or nothing before one of some tokens. -/
def readNodeUnless : Nat → List Content → Bool → Bool → Mark → Feed → Node × Rest
  | 0, _, _, _, _, s => (.missing, .ok s)
  | fuel + 1, ends, block, indentless, mark, s =>
    match s.peek with
    | .error e => (.missing, .error e)
    | .ok t =>
      if t.isOneOf ends then (emptyScalar mark, .ok s) else readNode fuel block indentless s

/-- The entries of a block sequence up to its end. -/
def readBlockItems : Nat → Mark → Feed → (List Node × Bool) × Rest
  | 0, _, s => (([], false), .ok s)
  | fuel + 1, start, s =>
    match s.peek with
    | .error e => (([], false), .error e)
    | .ok t =>
      match t.content with
      | .blockEntry =>
        match readNodeUnless fuel [.blockEntry, .blockEnd] true false t.stop s.next with
        | (n, .error e) => (([n], false), .error e)
        | (n, .ok s) =>
          let ((ns, closed), rest) := readBlockItems fuel start s
          ((n :: ns, closed), rest)
      | .blockEnd => (([], true), .ok s.next)
      | _ => (([], false), .error (problemAt t .missingDash .blockCollection start))

/-- The entries of a block sequence without indentation. -/
def readIndentless : Nat → Feed → (List Node × Bool) × Rest
  | 0, s => (([], false), .ok s)
  | fuel + 1, s =>
    match s.peek with
    | .error e => (([], false), .error e)
    | .ok t =>
      match t.content with
      | .blockEntry =>
        let ends : List Content := [.blockEntry, .key, .value, .blockEnd]
        match readNodeUnless fuel ends true false t.stop s.next with
        | (n, .error e) => (([n], false), .error e)
        | (n, .ok s) =>
          let ((ns, closed), rest) := readIndentless fuel s
          ((n :: ns, closed), rest)
      | _ => (([], true), .ok s)

/-- The pairs of a block mapping up to its end. -/
def readBlockPairs : Nat → Mark → Feed → (List (Node × Node) × Bool) × Rest
  | 0, _, s => (([], false), .ok s)
  | fuel + 1, start, s =>
    match s.peek with
    | .error e => (([], false), .error e)
    | .ok t =>
      match t.content with
      | .key =>
        match readNodeUnless fuel [.key, .value, .blockEnd] true true t.stop s.next with
        | (k, .error e) => (([(k, .missing)], false), .error e)
        | (k, .ok s) =>
          match readBlockValue fuel s with
          | (v, .error e) => (([(k, v)], false), .error e)
          | (v, .ok s) =>
            let ((ps, closed), rest) := readBlockPairs fuel start s
            (((k, v) :: ps, closed), rest)
      | .blockEnd => (([], true), .ok s.next)
      | _ => (([], false), .error (problemAt t .missingKey .blockMapping start))

/-- The value of a pair of a block mapping. -/
def readBlockValue : Nat → Feed → Node × Rest
  | 0, s => (.missing, .ok s)
  | fuel + 1, s =>
    match s.peek with
    | .error e => (.missing, .error e)
    | .ok t =>
      match t.content with
      | .value => readNodeUnless fuel [.key, .value, .blockEnd] true true t.stop s.next
      | _ => (emptyScalar t.start, .ok s)

/-- The items of a flow sequence up to its end. -/
def readFlowItems : Nat → Bool → Mark → Feed → (List Node × Bool) × Rest
  | 0, _, _, s => (([], false), .ok s)
  | fuel + 1, first, start, s =>
    let item (s : Feed) : (List Node × Bool) × Rest :=
      match s.peek with
      | .error e => (([], false), .error e)
      | .ok t =>
        if t.content = .flowSequenceEnd then (([], true), .ok s.next)
        else
          let r := if t.content = .key then readFlowPair fuel t.start s.next
            else readNode fuel false false s
          match r with
          | (n, .error e) => (([n], false), .error e)
          | (n, .ok s) =>
            let ((ns, closed), rest) := readFlowItems fuel false start s
            ((n :: ns, closed), rest)
    match s.peek with
    | .error e => (([], false), .error e)
    | .ok t =>
      if first || t.content = .flowSequenceEnd then item s
      else if t.content = .flowEntry then item s.next
      else (([], false), .error (problemAt t .missingCommaOrBracket .flowSequence start))

/-- A mapping of one pair inside a flow sequence. -/
def readFlowPair : Nat → Mark → Feed → Node × Rest
  | 0, _, s => (.missing, .ok s)
  | fuel + 1, start, s =>
    let info : NodeInfo := { mark := start }
    match s.peek with
    | .error e => (.mapping info [] false, .error e)
    | .ok t =>
      let (k, rest) :=
        if t.isOneOf [.value, .flowEntry, .flowSequenceEnd] then (emptyScalar t.stop, .ok s.next)
        else readNode fuel false false s
      match rest with
      | .error e => (.mapping info [(k, .missing)] false, .error e)
      | .ok s =>
        match s.peek with
        | .error e => (.mapping info [(k, .missing)] false, .error e)
        | .ok t =>
          let (v, rest) :=
            if t.content = .value then
              match s.next.peek with
              | .error e => (Node.missing, Except.error e)
              | .ok t =>
                if t.isOneOf [.flowEntry, .flowSequenceEnd] then
                  (emptyScalar t.start, .ok s.next)
                else readNode fuel false false s.next
            else (emptyScalar t.start, .ok s)
          match rest with
          | .error e => (.mapping info [(k, v)] false, .error e)
          | .ok s =>
            match s.peek with
            | .error e => (.mapping info [(k, v)] false, .error e)
            | .ok _ => (.mapping info [(k, v)] true, .ok s)

/-- The pairs of a flow mapping up to its end. -/
def readFlowPairs : Nat → Bool → Mark → Feed → (List (Node × Node) × Bool) × Rest
  | 0, _, _, s => (([], false), .ok s)
  | fuel + 1, first, start, s =>
    let pair (s : Feed) : (List (Node × Node) × Bool) × Rest :=
      match s.peek with
      | .error e => (([], false), .error e)
      | .ok t =>
        if t.content = .flowMappingEnd then (([], true), .ok s.next)
        else
          let indicated := t.content = .key
          let ((k, v), rest) := readFlowEntry fuel indicated (if indicated then s.next else s)
          match rest with
          | .error e => (([(k, v)], false), .error e)
          | .ok s =>
            let ((ps, closed), rest) := readFlowPairs fuel false start s
            (((k, v) :: ps, closed), rest)
    match s.peek with
    | .error e => (([], false), .error e)
    | .ok t =>
      if first || t.content = .flowMappingEnd then pair s
      else if t.content = .flowEntry then pair s.next
      else (([], false), .error (problemAt t .missingCommaOrBrace .flowMapping start))

/-- A key of a flow mapping, and its value when an indicator was before the key. -/
def readFlowEntry : Nat → Bool → Feed → (Node × Node) × Rest
  | 0, _, s => ((.missing, .missing), .ok s)
  | fuel + 1, indicated, s =>
    match s.peek with
    | .error e => ((.missing, .missing), .error e)
    | .ok t =>
      let (k, rest) :=
        if indicated && t.isOneOf [.value, .flowEntry, .flowMappingEnd] then
          (emptyScalar t.start, .ok s)
        else readNode fuel false false s
      match rest with
      | .error e => ((k, .missing), .error e)
      | .ok s =>
        match s.peek with
        | .error e => ((k, .missing), .error e)
        | .ok t =>
          if indicated && t.content = .value then
            match s.next.peek with
            | .error e => ((k, .missing), .error e)
            | .ok t =>
              if t.isOneOf [.flowEntry, .flowMappingEnd] then
                ((k, emptyScalar t.start), .ok s.next)
              else
                let (v, rest) := readNode fuel false false s.next
                ((k, v), rest)
          else ((k, emptyScalar t.start), .ok s)

end

/-! ## Documents -/

/-- The directives before a document. -/
def readDirectives : Nat → Bool → Feed → Except Stop Feed
  | 0, _, s => .ok s
  | fuel + 1, versioned, s => do
    let t ← s.peek
    match t.content with
    | .versionDirective major minor =>
      if versioned then throw (.fault ⟨.duplicateVersion, .mark t.start, none⟩)
      if major ≠ 1 ∨ (minor ≠ 1 ∧ minor ≠ 2) then
        throw (.fault ⟨.incompatibleDocument, .mark t.start, none⟩)
      readDirectives fuel true s.next
    | .tagDirective handle stem =>
      if (s.handles.lookup handle).isSome then
        throw (.fault ⟨.duplicateTagDirective, .mark t.start, none⟩)
      readDirectives fuel versioned { s.next with handles := s.handles ++ [(handle, stem)] }
    | _ => return s

/-- The handles that need no directive. -/
def standardHandles : List (String × String) := [("!", "!"), ("!!", standardStem)]

/-- Drop the markers of document ends. -/
def skipDocumentEnds : List Token → List Token
  | [] => []
  | t :: rest => if t.content = .documentEnd then skipDocumentEnds rest else t :: rest

/-- The root of a document behind its marker. -/
def readRoot (s : Feed) : Node × Rest :=
  match s.peek with
  | .error e => (.missing, .error e)
  | .ok t =>
    match t.content with
    | .versionDirective .. | .tagDirective .. | .documentStart | .documentEnd | .streamEnd =>
      (emptyScalar t.start, .ok s)
    | _ => readNode (6 * s.tokens.length + 6) true false s

/-- Find out whether a document has ended well, and go on behind the marker of its end. -/
def closeDocument (s : Feed) : Except Stop Feed := do
  let t ← s.peek
  return if t.content = .documentEnd then s.next else s

/-- Read the start of the next document: nothing at the end of the text. A document
without a marker is read only where none has been read before. -/
def openDocument (bare : Bool) (s : Feed) : Except Stop (Option (Node × Rest)) := do
  let s := if bare then s else { s with tokens := skipDocumentEnds s.tokens }
  let t ← s.peek
  match t.content with
  | .streamEnd => return none
  | content =>
    let marked := match content with
      | .versionDirective .. | .tagDirective .. | .documentStart => true
      | _ => false
    if bare && !marked then
      let s := { s with handles := standardHandles }
      return some (readNode (6 * s.tokens.length + 6) true false s)
    else do
      let s ← readDirectives (s.tokens.length + 1) false s
      let t ← s.peek
      if t.content ≠ .documentStart then
        throw (.fault ⟨.missingDocumentStart, .mark t.start, none⟩)
      return some (readRoot { s.next with handles := s.handles ++ standardHandles })

/-- The documents from a place on. -/
def documentsFrom : Nat → Bool → Feed → List Document
  | 0, _, _ => []
  | fuel + 1, bare, s =>
    match openDocument bare { s with handles := [], anchors := [] } with
    | .error e => [⟨.missing, some e⟩]
    | .ok none =>
      match bare, s.peek with
      | true, .ok t => [⟨.void t.start, none⟩]
      | _, _ => []
    | .ok (some (root, .error e)) => [⟨root, some e⟩]
    | .ok (some (root, .ok s)) =>
      match closeDocument s with
      | .error e => [⟨root, some e⟩]
      | .ok s => ⟨root, none⟩ :: documentsFrom fuel false s

/-- The documents of a text, up to the first that has a fault. A text without documents
is one that is void. -/
def documents (s : String) : List Document :=
  let stream := TokenStream.ofText s
  documentsFrom (stream.tokens.length + 1) true
    { tokens := stream.tokens.tail, fault := stream.fault }

end Distill.Yaml
