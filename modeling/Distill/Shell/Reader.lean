import Distill.Shell.Escape
import Distill.Shell.Script

/-!
# Reading scripts

Scripts are read line by line; a line with an error in it is not read at all, but the
lines before it are.

## Main definitions

* `Shell.Source`, `Shell.Reading` — the rest of a script, and readers of it.
* `Shell.readWord`, `Shell.readToken` — words and operators.
* `Shell.readCommand` — commands.
* `Shell.Script.ofText` — the script of a text.
-/

namespace Distill.Shell

/-- The rest of a script. -/
structure Source where
  rest : List Char
  line : Nat := 1
  dialect : Dialect := .standard
  deriving Repr, Inhabited

/-- A reader of a part of a script. -/
abbrev Reading := StateT Source (Except (SyntaxError × Nat))

/-- The script has an error on the current line. -/
def fail {α : Type} (e : SyntaxError) : Reading α := fun s => .error (e, s.line)

/-! ## Characters -/

/-- The next character. -/
def peek : Reading (Option Char) := fun s => .ok (s.rest.head?, s)

/-- Go beyond the next character. -/
def skip : Reading Unit := fun s =>
  match s.rest with
  | [] => .ok ((), s)
  | c :: rest => .ok ((), { s with rest, line := if c = '\n' then s.line + 1 else s.line })

/-- Go beyond so many characters. -/
def skipMany : Nat → Reading Unit
  | 0 => pure ()
  | n + 1 => do skip; skipMany n

/-- Whether the rest starts with a text. -/
def startsWith (s : String) : Reading Bool := do return s.toList.isPrefixOf (← get).rest

/-- Read something from a text of its own. -/
def within {α : Type} (text : List Char) (r : Reading α) : Reading α := fun s =>
  match r { s with rest := text } with
  | .ok (a, _) => .ok (a, s)
  | .error e => .error e

/-- The text up to the end of a bracket, and the text behind it. Brackets nest, and those
in quotes do not count. -/
def splitClosing (opening closing : Char) :
    Nat → Option Char → List Char → Option (List Char × List Char)
  | _, _, [] => none
  | depth, some '\'', c :: rest =>
    (splitClosing opening closing depth (if c = '\'' then none else some '\'') rest).map
      fun (a, b) => (c :: a, b)
  | depth, quote, '\\' :: c :: rest =>
    (splitClosing opening closing depth quote rest).map fun (a, b) => ('\\' :: c :: a, b)
  | depth, some q, c :: rest =>
    (splitClosing opening closing depth (if c = q then none else some q) rest).map
      fun (a, b) => (c :: a, b)
  | depth, none, c :: rest =>
    if c = closing ∧ depth = 0 then some ([], rest)
    else
      let depth := if c = opening then depth + 1 else if c = closing then depth - 1 else depth
      let quote := if c = '\'' ∨ c = '"' then some c else none
      (splitClosing opening closing depth quote rest).map fun (a, b) => (c :: a, b)

/-- The text up to an end that is not escaped, and the text behind it. -/
def splitEscaped (closing : Char) : List Char → Option (List Char × List Char)
  | [] => none
  | '\\' :: c :: rest => (splitEscaped closing rest).map fun (a, b) => ('\\' :: c :: a, b)
  | c :: rest =>
    if c = closing then some ([], rest)
    else (splitEscaped closing rest).map fun (a, b) => (c :: a, b)

/-- A part of the text that is found in the rest; the reader goes on behind it. -/
def cut (find : List Char → Option (List Char × List Char)) (e : SyntaxError) :
    Reading (List Char) := do
  let s ← get
  match find s.rest with
  | none => fail e
  | some (inside, rest) =>
    set { s with rest, line := s.line + (inside.filter (· == '\n')).length }
    return inside

/-! ## Words -/

/-- The quotes around a part of a word. -/
inductive Quotes where
  | none
  | double
  /-- In a text that is the input of a command, quotes stand for themselves. -/
  | document
  deriving DecidableEq, Repr

/-- Whether there are quotes. -/
def Quotes.any (q : Quotes) : Bool := q ≠ .none

/-- Put a part before a word; characters of one kind come together. -/
def consPart : WordPart → Word → Word
  | .plain s, .plain t :: w => .plain (s ++ t) :: w
  | .literal s, .literal t :: w => .literal (s ++ t) :: w
  | p, w => p :: w

/-- A character as a part of a word. -/
def charPart (q : Quotes) (c : Char) : WordPart :=
  if q.any then .literal c.toString else .plain c.toString

/-- Whether a name can start with a character. -/
def isNameStart (c : Char) : Bool := c.isAlpha || c = '_'

/-- Whether a name can go on with a character. -/
def isNameChar (c : Char) : Bool := c.isAlphanum || c = '_'

/-- The parameters with names of one character that is no letter. -/
def specialParameters : List Char := ['@', '*', '#', '?', '-', '$', '!']

/-- Whether a backslash in quotes escapes a character. -/
def isEscapable (q : Quotes) (c : Char) : Bool :=
  match q with
  | .none => true
  | .double => ['$', '\x60', '"', '\\'].contains c
  | .document => ['$', '\x60', '\\'].contains c

/-- The script between back quotes, where a backslash escapes a few characters. -/
def unescapeOutput : List Char → List Char
  | '\\' :: c :: rest =>
    if ['$', '\x60', '\\'].contains c then c :: unescapeOutput rest
    else '\\' :: c :: unescapeOutput rest
  | c :: rest => c :: unescapeOutput rest
  | [] => []

/-- Read the characters that belong together from the next one on. -/
def readWhile (p : Char → Bool) : Reading String := do
  let name := (← get).rest.takeWhile p
  skipMany name.length
  return String.ofList name

/-- The name of a parameter in braces. -/
def readParameterName : Reading String := do
  match ← peek with
  | some c =>
    if c.isDigit then readWhile Char.isDigit
    else if isNameStart c then readWhile isNameChar
    else if specialParameters.contains c then do skip; return c.toString
    else return ""
  | none => return ""

/-- What is made of a parameter in braces, up to the word. -/
def readTreatment : Reading Treatment := do
  let orEmpty := (← peek) = some ':'
  if orEmpty then skip
  let twice (c : Char) : Reading Bool := do
    if (← peek) = some c then skip; return true
    return false
  match ← peek with
  | some '-' => skip; return .fallback orEmpty
  | some '=' => skip; return .assign orEmpty
  | some '+' => skip; return .replacement orEmpty
  | some '?' => skip; return .demand orEmpty
  | some '#' => do
    skip
    let longest ← twice '#'
    return if orEmpty then .bad else .dropStart longest
  | some '%' => do
    skip
    let longest ← twice '%'
    return if orEmpty then .bad else .dropEnd longest
  | _ => return .bad

mutual

/-- Read a word up to a character that ends it. -/
def readParts : Nat → Quotes → (Char → Bool) → Reading Word
  | 0, _, _ => return []
  | n + 1, q, stop => do
    match ← peek with
    | none => return []
    | some c =>
      if stop c then return []
      skip
      if c = '\\' then
        match ← peek with
        | none => return [.literal "\\"]
        | some '\n' => skip; readParts n q stop
        | some d =>
          if isEscapable q d then
            skip
            return consPart (.literal d.toString) (← readParts n q stop)
          else return consPart (.literal "\\") (← readParts n q stop)
      else if c = '\'' && !q.any then
        let inside ← cut (fun cs =>
          let (a, b) := cs.span (· != '\'')
          if b.isEmpty then none else some (a, b.drop 1)) (.unterminatedQuote '\'')
        return consPart (.literal (String.ofList inside)) (← readParts n q stop)
      else if c = '"' && !q.any then
        let inside ← readParts n .double (· == '"')
        if (← peek).isNone then fail (.unterminatedQuote '"')
        skip
        let inside := if inside.isEmpty then [.literal ""] else inside
        return inside.foldr consPart (← readParts n q stop)
      else if c = '\x60' then
        let inside ← cut (splitEscaped '\x60') (.unterminatedOutput true)
        let part := WordPart.output q.any (String.ofList (unescapeOutput inside))
        return consPart part (← readParts n q stop)
      else if c = '$' then
        let part ← readDollar n q
        return consPart part (← readParts n q stop)
      else return consPart (charPart q c) (← readParts n q stop)

/-- Read what stands behind a dollar sign. -/
def readDollar : Nat → Quotes → Reading WordPart
  | 0, _ => return .literal "$"
  | n + 1, q => do
    match ← peek with
    | some '(' =>
      let arithmetic ← startsWith "(("
      skip
      let s ← get
      if s.dialect = .bash && !arithmetic && (splitClosing '(' ')' 0 none s.rest).isNone then
        fun s => .error (.unterminatedOutput false, s.line + 1)
      let inside ← cut (splitClosing '(' ')' 0 none)
        (if arithmetic then .unterminatedExpression else .unterminatedOutput false)
      if arithmetic && inside.getLast? = some ')' then
        let text := (inside.drop 1).dropLast
        return .arithmetic q.any (← within text (readParts n .document fun _ => false))
      else return .output q.any (String.ofList inside)
    | some '\x7b' => skip; readBraces n q
    | some c =>
      if isNameStart c then
        return .parameter q.any (← readWhile isNameChar) none .value [] []
      else if c.isDigit || specialParameters.contains c then
        skip
        return .parameter q.any c.toString none .value [] []
      else if c = '\'' && !q.any && (← get).dialect = .bash then
        skip
        let inside ← cut (splitEscaped '\'') (.unterminatedQuote '\'')
        let rules : EscapeRules := { hexadecimal := true, quotes := true }
        return .literal (Bytes.lossyText (unescape rules (String.ofList inside)).1)
      else return charPart q '$'
    | none => return charPart q '$'

/-- Read a parameter behind its opening brace. -/
def readBraces : Nat → Quotes → Reading WordPart
  | 0, _ => return .literal "$"
  | n + 1, q => do
    let bash := (← get).dialect = .bash
    let length := (← startsWith "#") && !(← startsWith "#\x7d") && !(← startsWith "#-") &&
      !(← startsWith "#?") && !(← startsWith "##") && !(← startsWith "#%")
    if length then skip
    let name ← readParameterName
    let index ← do
      if (← peek) = some '[' && bash then
        skip
        let inside ← cut (splitClosing '[' ']' 0 none) .unterminatedParameter
        pure (some (String.ofList inside))
      else pure none
    match ← peek with
    | none => fail (if q = .double then .unterminatedQuote '"' else .unterminatedParameter)
    | some '\x7d' =>
      skip
      let t : Treatment := if name = "" then .bad else if length then .length else .value
      return .parameter q.any name index t [] []
    | some c =>
      if bash && c = ':' && !((← get).rest.drop 1).head?.any ['-', '=', '+', '?'].contains then
        skip
        let inside ← cut (splitClosing '\x7b' '\x7d' 0 none) .unterminatedParameter
        let word ← within inside (readParts n .document fun _ => false)
        return .parameter q.any name index .slice word []
      if bash && c = '/' then
        skip
        let place ← match ← peek with
          | some '/' => do skip; pure (some '/')
          | some '#' => do skip; pure (some '#')
          | some '%' => do skip; pure (some '%')
          | _ => pure none
        let pattern ← readParts n .none fun c => c = '/' || c = '\x7d'
        if (← peek) = some '/' then skip
        let word ← readParts n .none (· == '\x7d')
        if (← peek).isNone then fail .unterminatedParameter
        skip
        return .parameter q.any name index (.substitute place) pattern word
      if bash && (c = '^' || c = ',') then
        let letters ← readWhile (· == c)
        let _ ← cut (splitClosing '\x7b' '\x7d' 0 none) .unterminatedParameter
        return .parameter q.any name index (.letterCase (c = '^') (1 < letters.length)) [] []
      let t ← readTreatment
      let t : Treatment := if name = "" || length then .bad else t
      let inner : Quotes := match t with
        | .dropStart _ | .dropEnd _ => .none
        | _ => q
      let word ← readParts n inner (· == '\x7d')
      if (← peek).isNone then
        fail (if q = .double then .unterminatedQuote '"' else .unterminatedParameter)
      skip
      return .parameter q.any name index t word []

end

/-- Whether a character ends a word. -/
def isDelimiter (c : Char) : Bool :=
  [' ', '\t', '\n', ';', '&', '|', '(', ')', '<', '>'].contains c

/-- Read a word. -/
def readWord : Reading Word := do readParts (8 * (← get).rest.length + 8) .none isDelimiter

/-! ## Tokens -/

/-- What scripts consist of. -/
inductive Token where
  | word (w : Word)
  | operator (s : String)
  /-- The number of a descriptor before an operator that changes it. -/
  | descriptor (n : Nat)
  | newline
  | finish
  deriving Repr, Inhabited

/-- The operators, the longer ones first. -/
def operators : Dialect → List String
  | .standard => ["<<-", "&&", "||", ";;", "<<", "<&", "<>", ">&", ">>", ">|", ";", "&", "|", "(",
      ")", "<", ">"]
  | .bash => ["<<<", "<<-", "&>>", "&&", "||", ";;", "<<", "<&", "<>", ">&", ">>", ">|", "&>", "|&",
      ";", "&", "|", "(", ")", "<", ">"]

/-- The operators that change descriptors. -/
def redirectOperators : List String :=
  ["<", ">", ">>", ">|", "<>", "<&", ">&", "<<", "<<-", "<<<", "&>", "&>>"]

/-- Go beyond blanks, a comment and ends of lines that are escaped. -/
def skipBlanks : Nat → Reading Unit
  | 0 => pure ()
  | n + 1 => do
    match ← peek with
    | some ' ' | some '\t' => skip; skipBlanks n
    | some '#' => let _ ← readWhile (· != '\n')
    | some '\\' =>
      if ← startsWith "\\\n" then
        skipMany 2
        skipBlanks n
    | _ => pure ()

/-- Read a token. -/
def readToken : Reading Token := do
  skipBlanks ((← get).rest.length + 1)
  let s ← get
  match s.rest.head? with
  | none => return .finish
  | some '\n' => skip; return .newline
  | some _ =>
    match (operators s.dialect).find? fun op => op.toList.isPrefixOf s.rest with
    | some op =>
      skipMany op.length
      return .operator op
    | none =>
      let w ← readWord
      match w.plain?.bind decimal?, ← peek with
      | some k, some '<' | some k, some '>' => return .descriptor k
      | _, _ => return .word w

/-- The next token, which is read again. -/
def peekToken : Reading Token := fun s =>
  match readToken s with
  | .ok (t, _) => .ok (t, s)
  | .error e => .error e

/-- The words with a meaning of their own at the start of a command. -/
def reservedWords : List String :=
  ["if", "then", "elif", "else", "fi", "while", "until", "for", "do", "done", "case", "esac", "in",
    "\x7b", "\x7d", "!"]

/-- How messages name a token that is written in a certain way. -/
def Token.shown (d : Dialect) (text : String) : Token → String
  | .newline => "newline"
  | .finish => "end of file"
  | .operator s =>
    if d = .standard then
      if redirectOperators.contains s then "redirection" else "\"" ++ s ++ "\""
    else s
  | .descriptor n => if d = .standard then "redirection" else toString n
  | .word w =>
    let word := w.plain?.getD ""
    if d = .bash then text
    else if reservedWords.contains word then "\"" ++ word ++ "\""
    else "word"

/-- The next token may not stand where it does. -/
def unexpected {α : Type} (expected : Option String := none) : Reading α := do
  skipBlanks ((← get).rest.length + 1)
  let before ← get
  let t ← readToken
  let after ← get
  let text := String.ofList (before.rest.take (before.rest.length - after.rest.length))
  let line := match t with
    | .finish => if before.dialect = .bash then before.line + 1 else before.line
    | _ => before.line
  fun _ => .error (.unexpected (t.shown before.dialect text) expected, line)

/-- A word has to stand here; the text ends in a newline if one is looked for. -/
def unexpectedForWord {α : Type} : Reading α := do
  match ← peekToken with
  | .finish =>
    if (← get).dialect = .bash then fail (.unexpected "newline" none) else unexpected
  | _ => unexpected

/-- Whether the next token is a plain word. -/
def isNextWord (word : String) : Reading Bool := do
  match ← peekToken with
  | .word w => return w.plain? = some word
  | _ => return false

/-- Whether the next token is an operator. -/
def isNextOperator (op : String) : Reading Bool := do
  match ← peekToken with
  | .operator s => return s = op
  | _ => return false

/-- Go beyond a plain word that has to be there. -/
def expectWord (word : String) : Reading Unit := do
  if ← isNextWord word then
    let _ ← readToken
  else unexpected (some word)

/-- Go beyond an operator that has to be there. -/
def expectOperator (op : String) : Reading Unit := do
  if ← isNextOperator op then
    let _ ← readToken
  else unexpected (some op)

/-- Go beyond ends of lines. -/
def skipNewlines : Nat → Reading Unit
  | 0 => pure ()
  | n + 1 => do
    match ← peekToken with
    | .newline =>
      let _ ← readToken
      skipNewlines n
    | _ => pure ()

/-! ## Redirects and assignments -/

/-- The text of a word without its quotes. -/
def Word.text (w : Word) : String :=
  String.join (w.map fun
    | .plain s | .literal s => s
    | _ => "")

/-- The lines up to a delimiter, and the text behind it. -/
def splitDocument (delimiter : List Char) (tabs : Bool) :
    Nat → List Char → List Char × List Char
  | 0, cs => ([], cs)
  | n + 1, cs =>
    let (line, rest) := cs.span (· != '\n')
    let line := if tabs then line.dropWhile (· == '\t') else line
    if cs.isEmpty then ([], [])
    else if line = delimiter then ([], rest.drop 1)
    else
      let (body, after) := splitDocument delimiter tabs n (rest.drop 1)
      (line ++ '\n' :: body, after)

/-- Read the text behind the current line up to a delimiter. -/
def readDocument (tabs : Bool) (delimiter : Word) : Reading Word := do
  let s ← get
  let (line, rest) := s.rest.span (· != '\n')
  let (body, after) := splitDocument delimiter.text.toList tabs (rest.length + 1) (rest.drop 1)
  set { s with rest := line ++ (if rest.isEmpty then [] else '\n' :: after) }
  if delimiter.plain?.isNone then return [.literal (String.ofList body)]
  within body (readParts (8 * body.length + 8) .document fun _ => false)

/-- Read a change of a descriptor. -/
def readRedirect (descriptor : Option Nat) : Reading Redirect := do
  let op ← match ← readToken with
    | .operator s => pure s
    | _ => pure ""
  let target ← match ← peekToken with
    | .word w => do
      let _ ← readToken
      pure w
    | _ => unexpectedForWord
  let number := descriptor.getD (if op.startsWith "<" then 0 else 1)
  match op with
  | "<" | "<>" => return ⟨number, .input, target⟩
  | ">>" => return ⟨number, .append, target⟩
  | "<&" | ">&" => return ⟨number, .duplicate, target⟩
  | "<<" => return ⟨number, .text false, ← readDocument false target⟩
  | "<<-" => return ⟨number, .text false, ← readDocument true target⟩
  | "<<<" => return ⟨number, .text true, target⟩
  | "&>" | "&>>" => return ⟨number, .both, target⟩
  | _ => return ⟨number, .output, target⟩

/-- Read all changes of descriptors that follow. -/
def readRedirects : Nat → Reading (List Redirect)
  | 0 => return []
  | n + 1 => do
    match ← peekToken with
    | .descriptor k => do
      let _ ← readToken
      return (← readRedirect (some k)) :: (← readRedirects n)
    | .operator s =>
      if redirectOperators.contains s then
        return (← readRedirect none) :: (← readRedirects n)
      else return []
    | _ => return []

/-- Read words up to a closing bracket. -/
def readArray : Nat → Reading (List Word)
  | 0 => return []
  | n + 1 => do
    match ← peekToken with
    | .word w => do
      let _ ← readToken
      return w :: (← readArray n)
    | .newline => do
      let _ ← readToken
      readArray n
    | .operator ")" => do
      let _ ← readToken
      return []
    | _ => unexpected

/-- The assignment that a word is. -/
def assignment? (d : Dialect) (w : Word) : Option Assignment :=
  match w with
  | .plain s :: rest =>
    let (name, tail) := s.toList.span isNameChar
    if name.isEmpty || !(name.head?.any isNameStart) then none
    else
      let (index, tail) : Option String × List Char := match tail with
        | '[' :: cs =>
          match splitClosing '[' ']' 0 none cs with
          | some (inside, after) =>
            if d = .bash then (some (String.ofList inside), after) else (none, tail)
          | none => (none, tail)
        | _ => (none, tail)
      let value (cs : List Char) : Word :=
        if cs.isEmpty then rest else .plain (String.ofList cs) :: rest
      match tail with
      | '=' :: cs => some ⟨String.ofList name, index, .word (value cs)⟩
      | '+' :: '=' :: cs =>
        if d = .bash then some ⟨String.ofList name, index, .more (value cs)⟩ else none
      | _ => none
  | _ => none

/-! ## Commands -/

/-- Whether a token ends a list of commands. -/
def Token.endsList : Token → Bool
  | .finish => true
  | .operator s => s = ")" || s = ";;"
  | .word w =>
    ["then", "elif", "else", "fi", "do", "done", "esac", "\x7d"].contains (w.plain?.getD "")
  | _ => false

/-- Commands after one another as one. -/
def Command.ofList : List Command → Command
  | [c] => c
  | cs => .sequence cs

/-- Read words up to the end of the line or of the command. -/
def readWords : Nat → Reading (List Word)
  | 0 => return []
  | n + 1 => do
    match ← peekToken with
    | .word w => do
      let _ ← readToken
      return w :: (← readWords n)
    | _ => return []

/-- Read the words of a test up to its closing brackets; operators are words there. -/
def readTestWords : Nat → Reading (List Word)
  | 0 => return []
  | n + 1 => do
    let t ← peekToken
    match t with
    | .word w => do
      let _ ← readToken
      if w.plain? = some "]]" then return []
      return w :: (← readTestWords n)
    | .operator op => do
      let _ ← readToken
      return Word.ofPlain op :: (← readTestWords n)
    | .newline => do
      let _ ← readToken
      readTestWords n
    | _ => unexpected

mutual

/-- Read commands up to a word or an operator that ends them. -/
def readList : Nat → Reading (List Command)
  | 0 => unexpected
  | n + 1 => do
    skipNewlines (n + 1)
    match (← get).dialect, ← peekToken with
    | .standard, .finish => return []
    | _, _ => pure ()
    let c ← readAndOr n
    match ← peekToken with
    | .operator ";" | .newline => do
      let _ ← readToken
      skipNewlines (n + 1)
      if (← peekToken).endsList then return [c]
      return c :: (← readList n)
    | .operator "&" => do
      let _ ← readToken
      skipNewlines (n + 1)
      if (← peekToken).endsList then return [.background c]
      return .background c :: (← readList n)
    | _ => return [c]

/-- Read commands of which each depends on the one before it. -/
def readAndOr : Nat → Reading Command
  | 0 => unexpected
  | n + 1 => do readAndOrAfter n (← readPipeline n)

/-- Read on behind a command on which others may depend. -/
def readAndOrAfter : Nat → Command → Reading Command
  | 0, _ => unexpected
  | n + 1, a => do
    if ← isNextOperator "&&" then
      let _ ← readToken
      skipNewlines (n + 1)
      readAndOrAfter n (.andThen a (← readPipeline n))
    else if ← isNextOperator "||" then
      let _ ← readToken
      skipNewlines (n + 1)
      readAndOrAfter n (.orElse a (← readPipeline n))
    else return a

/-- Read commands that are piped together. -/
def readPipeline : Nat → Reading Command
  | 0 => unexpected
  | n + 1 => do
    let negated ← isNextWord "!"
    if negated then
      let _ ← readToken
      if (← get).dialect = .bash && (← isNextWord "!") then
        return .pipeline true [← readPipeline n]
    match negated, ← readPiped n with
    | false, [c] => return c
    | _, cs => return .pipeline negated cs

/-- Read the commands of a pipeline. -/
def readPiped : Nat → Reading (List Command)
  | 0 => unexpected
  | n + 1 => do
    let c ← readCommand n
    if ← isNextOperator "|" then
      let _ ← readToken
      skipNewlines (n + 1)
      return c :: (← readPiped n)
    else if ← isNextOperator "|&" then
      let _ ← readToken
      skipNewlines (n + 1)
      let joined : Redirect := ⟨2, .duplicate, Word.ofPlain "1"⟩
      return .redirected 0 c [joined] :: (← readPiped n)
    else return [c]

/-- Read a command. -/
def readCommand : Nat → Reading Command
  | 0 => unexpected
  | n + 1 => do
    let line := (← get).line
    let bash := (← get).dialect = .bash
    let t ← peekToken
    let compound (c : Command) : Reading Command := do
      match ← readRedirects (n + 1) with
      | [] => return c
      | rs => return .redirected line c rs
    match t with
    | .word w =>
      match w.plain? with
      | some "if" => do
        let _ ← readToken
        compound (← readConditional n)
      | some "while" => do
        let _ ← readToken
        compound (← readLoop n true)
      | some "until" => do
        let _ ← readToken
        compound (← readLoop n false)
      | some "for" => do
        let _ ← readToken
        compound (← readForEach n)
      | some "case" => do
        let _ ← readToken
        compound (← readChoice n)
      | some "\x7b" => do
        let _ ← readToken
        let cs ← readList n
        expectWord "\x7d"
        compound (Command.ofList cs)
      | some "[[" =>
        if bash then
          let _ ← readToken
          compound (.condition line (← readTestWords (n + 1)))
        else readSimple n line [] [] []
      | some "function" =>
        if bash then
          let _ ← readToken
          let name ← match ← readToken with
            | .word w => pure w.text
            | _ => unexpected
          if ← isNextOperator "(" then
            let _ ← readToken
            expectOperator ")"
          skipNewlines (n + 1)
          return .function name (← readCommand n)
        else readSimple n line [] [] []
      | some text =>
        if reservedWords.contains text && text != "in" then unexpected
        else readSimple n line [] [] []
      | none => readSimple n line [] [] []
    | .operator "(" => do
      let _ ← readToken
      if bash && (← startsWith "(") then
        skip
        let inside ← cut (splitClosing '(' ')' 0 none) .unterminatedExpression
        expectOperator ")"
        let e ← within inside (readParts n .document fun _ => false)
        compound (.arithmetic line e)
      else
        let cs ← readList n
        expectOperator ")"
        compound (.subshell (Command.ofList cs))
    | .operator op =>
      if redirectOperators.contains op then readSimple n line [] [] [] else unexpected
    | .descriptor _ => readSimple n line [] [] []
    | .newline | .finish => unexpected

/-- Read on behind the word that starts a condition. -/
def readConditional : Nat → Reading Command
  | 0 => unexpected
  | n + 1 => do
    let condition ← readList n
    expectWord "then"
    let positive ← readList n
    let negative ← do
      if ← isNextWord "elif" then
        let _ ← readToken
        return .conditional (Command.ofList condition) (Command.ofList positive)
          (some (← readConditional n))
      else if ← isNextWord "else" then
        let _ ← readToken
        pure (some (Command.ofList (← readList n)))
      else pure none
    expectWord "fi"
    return .conditional (Command.ofList condition) (Command.ofList positive) negative

/-- Read on behind the word that starts a loop. -/
def readLoop : Nat → Bool → Reading Command
  | 0, _ => unexpected
  | n + 1, while_ => do
    let condition ← readList n
    expectWord "do"
    let body ← readList n
    expectWord "done"
    return .loop while_ (Command.ofList condition) (Command.ofList body)

/-- Read on behind the word that starts a loop over words. -/
def readForEach : Nat → Reading Command
  | 0 => unexpected
  | n + 1 => do
    let line := (← get).line
    if (← get).dialect = .bash && (← startsWith " ((") then return ← readCounted n
    let name ← match ← readToken with
      | .word w =>
        let name := w.plain?.getD ""
        if name.toList.all isNameChar && name.toList.head?.any isNameStart then pure name
        else fail .badLoopVariable
      | _ =>
        if (← get).dialect = .bash then fail (.unexpected "newline" none) else fail .badLoopVariable
    skipNewlines (n + 1)
    let words ← do
      if ← isNextWord "in" then
        let _ ← readToken
        pure (some (← readWords (n + 1)))
      else pure none
    if ← isNextOperator ";" then
      let _ ← readToken
    skipNewlines (n + 1)
    expectWord "do"
    let body ← readList n
    expectWord "done"
    return .forEach line name words (Command.ofList body)

/-- Read a loop that counts. -/
def readCounted : Nat → Reading Command
  | 0 => unexpected
  | n + 1 => do
    let line := (← get).line
    skipMany 3
    let inside ← cut (splitClosing '(' ')' 0 none) .unterminatedExpression
    expectOperator ")"
    let parts := (String.ofList inside).splitOn ";"
    let expression (i : Nat) : Reading Word :=
      within (parts.getD i "").toList (readParts n .document fun _ => false)
    let (start, condition, next) := (← expression 0, ← expression 1, ← expression 2)
    if ← isNextOperator ";" then
      let _ ← readToken
    skipNewlines (n + 1)
    expectWord "do"
    let body ← readList n
    expectWord "done"
    return .counted line start condition next (Command.ofList body)

/-- Read on behind the word that starts a choice. -/
def readChoice : Nat → Reading Command
  | 0 => unexpected
  | n + 1 => do
    let line := (← get).line
    let w ← match ← peekToken with
      | .word w => do
        let _ ← readToken
        pure w
      | _ => if (← get).dialect = .bash then unexpectedForWord else unexpected (some "word")
    skipNewlines (n + 1)
    expectWord "in"
    return .choice line w (← readClauses n)

/-- Read the clauses of a choice. -/
def readClauses : Nat → Reading (List (List Word × Command))
  | 0 => unexpected
  | n + 1 => do
    skipNewlines (n + 1)
    if ← isNextWord "esac" then
      let _ ← readToken
      return []
    if ← isNextOperator "(" then
      let _ ← readToken
    let patterns ← readPatterns (n + 1)
    skipNewlines (n + 1)
    let body ← do
      if (← peekToken).endsList then pure [] else readList n
    if ← isNextOperator ";;" then
      let _ ← readToken
      return (patterns, Command.ofList body) :: (← readClauses n)
    expectWord "esac"
    return [(patterns, Command.ofList body)]

/-- Read the patterns of a clause. -/
def readPatterns : Nat → Reading (List Word)
  | 0 => unexpected
  | n + 1 => do
    let w ← match ← peekToken with
      | .word w => do
        let _ ← readToken
        pure w
      | _ => unexpected (some ")")
    if ← isNextOperator "|" then
      let _ ← readToken
      return w :: (← readPatterns n)
    expectOperator ")"
    return [w]

/-- Read a simple command of which some parts are known. -/
def readSimple : Nat → Nat → List Assignment → List Word → List Redirect → Reading Command
  | 0, _, _, _, _ => unexpected
  | n + 1, line, as, ws, rs => do
    let dialect := (← get).dialect
    match ← peekToken with
    | .word w =>
      let _ ← readToken
      match if ws.isEmpty then assignment? dialect w else none with
      | some a =>
        if dialect = .bash && (w.plain?.getD "").endsWith "=" && (← peek) = some '(' then
          skip
          let items ← readArray (n + 1)
          let given : Given := match a.given with
            | .more _ => .moreItems items
            | _ => .array items
          readSimple n line (as ++ [{ a with given }]) ws rs
        else readSimple n line (as ++ [a]) ws rs
      | none =>
        if ws.isEmpty && as.isEmpty && rs.isEmpty && (← isNextOperator "(") then
          let _ ← readToken
          expectOperator ")"
          skipNewlines (n + 1)
          return .function w.text (← readCommand n)
        else readSimple n line as (ws ++ [w]) rs
    | .descriptor k => do
      let _ ← readToken
      let r ← readRedirect (some k)
      readSimple n line as ws (rs ++ [r])
    | .operator op =>
      if redirectOperators.contains op then
        let r ← readRedirect none
        readSimple n line as ws (rs ++ [r])
      else return .simple line as ws rs
    | _ => return .simple line as ws rs

end

/-! ## Scripts -/

/-- Read the commands of a line. -/
def readLine : Nat → Reading (List Command)
  | 0 => unexpected
  | n + 1 => do
    let c ← readAndOr n
    let t ← peekToken
    match t with
    | .newline | .finish => return [c]
    | .operator ";" | .operator "&" => do
      let _ ← readToken
      let c := if (match t with | .operator "&" => true | _ => false) then .background c else c
      match ← peekToken with
      | .newline | .finish => return [c]
      | _ => return c :: (← readLine n)
    | _ => unexpected

/-- Read lines up to the end or the first error. -/
def readLines : Nat → Source → List Command × Option (SyntaxError × Nat)
  | 0, _ => ([], none)
  | n + 1, s =>
    match (do skipNewlines (s.rest.length + 1); peekToken : Reading Token) s with
    | .error e => ([], some e)
    | .ok (.finish, _) => ([], none)
    | .ok (_, s) =>
      match readLine (16 * (s.rest.length + 1)) s with
      | .error e => ([], some e)
      | .ok (cs, s) =>
        let (more, e) := readLines n s
        (Command.ofList cs :: more, e)

/-- The script of a text. -/
def Script.ofText (d : Dialect) (text : String) (line : Nat := 1) : Script :=
  let (lines, error) := readLines (text.length + 1) { rest := text.toList, line, dialect := d }
  ⟨lines, error⟩

end Distill.Shell
