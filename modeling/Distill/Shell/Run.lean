import Distill.Shell.Expansion
import Distill.Shell.Reader
import Distill.Shell.Utility

/-!
# Running scripts

Words are expanded and commands are run for as many levels and rounds as there is fuel;
a script that needs more of it is taken to run for ever.

## Main definitions

* `Shell.expandParts` — what words expand to.
* `Shell.exec` — run a command.
* `Shell.runScript` — run a script to its end.
* `Shell.Result`, `Shell.run` — how a shell ends that is started with a script.
-/

namespace Distill.Shell

/-! ## Errors -/

/-- Leave the shell with a message. -/
def fatal {α : Type} (text : String) (status : Nat) : Running α := do
  complain text status
  throw .exit

/-- The wording of an error in a script. -/
def SyntaxError.message (d : Dialect) : SyntaxError → String
  | unterminatedQuote q =>
    if d = .bash then "unexpected EOF while looking for matching \x60" ++ q.toString ++ "'"
    else "Syntax error: Unterminated quoted string"
  | unterminatedOutput back =>
    if d = .bash then
      "unexpected EOF while looking for matching \x60" ++ (if back then "\x60" else ")") ++ "'"
    else if back then "Syntax error: EOF in backquote substitution"
    else "Syntax error: end of file unexpected (expecting \")\")"
  | unterminatedExpression =>
    if d = .bash then "unexpected EOF while looking for matching \x60)'"
    else "Syntax error: Missing '))'"
  | unterminatedParameter =>
    if d = .bash then "unexpected EOF while looking for matching \x60\x7d'"
    else "Syntax error: Missing '\x7d'"
  | unexpected token expected =>
    if d = .bash then
      if token = "end of file" then "syntax error: unexpected end of file"
      else "syntax error near unexpected token \x60" ++ token ++ "'"
    else
      "Syntax error: " ++ token ++ " unexpected" ++
        (match expected with
        | some "word" => " (expecting word)"
        | some e => " (expecting \"" ++ e ++ "\")"
        | none => "")
  | badLoopVariable =>
    if d = .bash then "syntax error near unexpected token"
    else "Syntax error: Bad for loop variable"

/-- Tell an error in a script, which a builtin may have been given. -/
def tellSyntaxError (builtin : String) (text : String) (e : SyntaxError × Nat) : Running Unit := do
  let s ← get
  if s.dialect = .bash then
    let origin := if builtin = "" then "-c" else builtin
    let start := s.name ++ ": " ++ origin ++ ": line " ++ toString e.2 ++ ": "
    grumble (start ++ e.1.message .bash) 2
    match e.1 with
    | .unexpected token _ =>
      if token ≠ "end of file" then
        grumble (start ++ "\x60" ++ ((text.splitOn "\n").getD (e.2 - 1) "") ++ "'") 2
    | _ => pure ()
  else
    let origin := if builtin = "" then "" else builtin ++ ": "
    grumble (s.name ++ ": " ++ toString e.2 ++ ": " ++ origin ++ e.1.message .standard) 2

/-- The wording of an error in an expression. -/
def arithmeticMessage (d : Dialect) (text : String) : Arithmetic.Error → String
  | .primary rest =>
    let token := if rest.trimAscii.isEmpty then (text.trimAscii.takeEnd 1).toString else rest
    if d = .bash then
      text ++ ": syntax error: operand expected (error token is \"" ++ token ++ "\")"
    else "arithmetic expression: expecting primary: \"" ++ text ++ "\""
  | .trailing rest =>
    if d = .bash then text ++ ": syntax error in expression (error token is \"" ++ rest ++ "\")"
    else "arithmetic expression: expecting EOF: \"" ++ text ++ "\""
  | .badDigits digits =>
    if d = .bash then text ++ ": value too great for base (error token is \"" ++ digits ++ "\")"
    else "arithmetic expression: expecting EOF: \"" ++ text ++ "\""
  | .divisionByZero =>
    if d = .bash then text ++ ": division by 0 (error token is \"0\")"
    else "arithmetic expression: division by zero: \"" ++ text ++ "\""
  | .illegalNumber n =>
    if d = .bash then n ++ ": value too great for base (error token is \"" ++ n ++ "\")"
    else "Illegal number: " ++ n

/-! ## Scopes -/

/-- Do something while failure is looked at by the script itself. -/
def tested (act : Running Unit) : Running Unit := fun s =>
  let (r, after) := act { s with tested := true }
  (r, { after with tested := s.tested })

/-- Do something in a shell of its own; only files, output, time and the status remain. -/
def inSubshell (setup : State → State) (act : Running Unit) : Running Unit := fun s =>
  let (r, after) := act (setup s)
  let after := { after with
    bindings := s.bindings, functions := s.functions, params := s.params, current := s.current
    descriptors := s.descriptors, options := s.options, atExit := s.atExit, tested := s.tested
    name := s.name, dialect := s.dialect, exported := s.exported
    functionDepth := s.functionDepth, loopDepth := s.loopDepth }
  match r with
  | .error .expired => (.error .expired, after)
  | .error .killed => (.error .killed, after)
  | _ => (.ok (), after)

/-- The same state with a new channel for the output. -/
def State.collect (s : State) : State :=
  { s with channels := s.channels ++ [[]] }.setDescriptor 1 (some (.channel s.channels.length))

/-- The output of something in a shell of its own. -/
def captured (act : Running Unit) : Running Bytes := do
  let n := (← get).channels.length
  inSubshell State.collect act
  let s ← get
  return s.collected n

/-- A round of a loop; tells whether the loop goes on. -/
def inLoop (act : Running Unit) : Running Bool := fun s =>
  let (r, after) := act { s with loopDepth := s.loopDepth + 1 }
  match r, { after with loopDepth := s.loopDepth } with
  | .ok _, s => (.ok true, s)
  | .error (.leave k), s =>
    if k ≤ 1 || s.loopDepth = 0 then (.ok false, s) else (.error (.leave (k - 1)), s)
  | .error (.again k), s =>
    if k ≤ 1 || s.loopDepth = 0 then (.ok true, s) else (.error (.again (k - 1)), s)
  | .error f, s => (.error f, s)

/-- Do something with other positional parameters, up to the end or to a return. -/
def inFunction (params : List String) (act : Running Unit) : Running Unit := fun s =>
  let (r, after) := act { s with params, functionDepth := s.functionDepth + 1, outer := [] }
  let after := after.outer.foldl (fun after (name, v) => after.restore name v) after
  let after := { after with
    params := s.params, functionDepth := s.functionDepth, outer := s.outer }
  match r with
  | .error .back => (.ok (), after)
  | _ => (r, after)

/-- Do something and bring the descriptors back that were there before. -/
def keepDescriptors (act : Running Unit) : Running Unit := fun s =>
  let (r, after) := act s
  (r, { after with descriptors := s.descriptors })

/-- Leave the shell if that is wanted after a failure. -/
def checkFailure : Running Unit := do
  let s ← get
  if s.options.exitOnFailure && !s.tested && s.status ≠ 0 then throw .exit

/-- Something left in the background ends; the shell goes on at once. -/
def inBackground (act : Running Unit) : Running Unit := fun s =>
  let (r, after) := inSubshell (·.setDescriptor 0 (some .null)) act s
  let ending := match r with
    | .error .expired => s.deadline.getD after.clock
    | _ => after.clock
  (.ok (), { after with
    clock := s.clock, backgroundEnd := max s.backgroundEnd ending, status := 0 })

/-! ## Parameters -/

/-- The text of a parameter if it is set. -/
def State.parameter? (s : State) (name : String) : Option String :=
  match name with
  | "#" => some (toString s.params.length)
  | "?" => some (toString s.status)
  | "$" => some processNumber
  | "-" => some (if s.options.exitOnFailure then "e" else "")
  | "!" => none
  | "@" | "*" => if s.params.isEmpty then none else some (" ".intercalate s.params)
  | "PWD" => some ((s.text? "PWD").getD ("/" ++ "/".intercalate s.current))
  | "0" => some s.name
  | _ =>
    match decimal? name with
    | some n => s.params[n - 1]?
    | none => s.text? name

/-! ## Builtins that set the shell itself -/

/-- Change the current directory. -/
def cd (args : List String) : Running Unit := do
  let s ← get
  match args with
  | path :: _ =>
    let told (e : FileError) : Running Unit :=
      if s.dialect = .bash then complain ("cd: " ++ path ++ ": " ++ reason e) 1
      else complain ("cd: can't cd to " ++ path) 2
    if path = "/" then set { s with current := [], status := 0 }
    else
      match s.resolve path with
      | .error e => told e
      | .ok there =>
        if s.files.hasDirectory there then set { s with current := there, status := 0 }
        else told .notDirectory
  | [] => finish 0

/-- Whether a text names a set of options. -/
def setFlag (on : Bool) (o : Options) (c : Char) : Options :=
  match c with
  | 'e' => { o with exitOnFailure := on }
  | 'u' => { o with demandSet := on }
  | 'f' => { o with noPaths := on }
  | _ => o

/-- Set an option by its name. -/
def setNamed (d : Dialect) (o : Options) (name : String) : Options :=
  match name with
  | "pipefail" => { o with pipeFails := d = .bash }
  | "errexit" => { o with exitOnFailure := true }
  | "nounset" => { o with demandSet := true }
  | "noglob" => { o with noPaths := true }
  | _ => o

/-- Set options and positional parameters. -/
def setOptions (d : Dialect) : State → List String → State
  | s, [] => s
  | s, "--" :: rest => { s with params := rest }
  | s, "-o" :: name :: rest => setOptions d { s with options := setNamed d s.options name } rest
  | s, arg :: rest =>
    if arg.startsWith "-" && arg.length > 1 then
      setOptions d { s with options := (arg.toList.drop 1).foldl (setFlag true) s.options } rest
    else if arg.startsWith "+" && arg.length > 1 then
      setOptions d { s with options := (arg.toList.drop 1).foldl (setFlag false) s.options } rest
    else { s with params := arg :: rest }

/-- The first word of a text that does not start with a blank, and what stands behind
the separator that ends it: blanks with at most one other separator among them. -/
def cutWord (separators : List Char) (cs : List Char) : List Char × List Char :=
  let isBlank (c : Char) : Bool := separators.contains c && " \t\n".toList.contains c
  let word := cs.takeWhile fun c => !separators.contains c
  let rest := (cs.drop word.length).dropWhile isBlank
  match rest with
  | c :: more => (word, if separators.contains c then more.dropWhile isBlank else rest)
  | [] => (word, [])

/-- Give the words of a text to variables; the last takes all that is left, without the
blanks at its end. -/
def giveWords (separators : List Char) : List String → List Char → State → State
  | [], _, s => s
  | [name], cs, s =>
    let isBlank (c : Char) : Bool := separators.contains c && " \t\n".toList.contains c
    let text := (cs.reverse.dropWhile isBlank).reverse
    let (word, rest) := cutWord separators text
    s.setVariable name (.text (String.ofList (if rest.isEmpty then word else text)))
  | name :: names, cs, s =>
    let (word, rest) := cutWord separators cs
    giveWords separators names rest (s.setVariable name (.text (String.ofList word)))

/-- Read a line of the input into variables. -/
def readVariables (args : List String) : Running Unit := do
  let (options, names) := splitOptions ['p', 't', 'n', 'd'] args
  let names := if names.isEmpty then ["REPLY"] else names
  let data ← takeInput
  let line := data.takeWhile (· != 10)
  let rest := data.drop line.length
  returnInput (rest.drop 1)
  let s ← get
  let text := Bytes.lossyText line
  let text := if hasOption options 'r' then text else text.replace "\\" ""
  let start := text.toList.dropWhile fun c =>
    s.separators.contains c && " \t\n".toList.contains c
  set (giveWords s.separators names start s)
  finish (if rest.isEmpty then 1 else 0)

/-- Take variables and functions away. -/
def unset (args : List String) : Running Unit := modify fun s =>
  args.foldl (fun s name =>
    { s with
      bindings := s.bindings.filter (·.1 != name)
      functions := s.functions.filter (·.1 != name) }) { s with status := 0 }

/-- The name before a value. -/
def givenName (arg : String) : String := String.ofList (arg.toList.takeWhile (· != '='))

/-- Give values to variables, each written with its name. -/
def declare (args : List String) : Running Unit := modify fun s =>
  args.foldl (fun s arg =>
    let name := givenName arg
    if name.length < arg.length then
      s.setVariable name (.text (arg.drop (name.length + 1)).toString)
    else s) { s with status := 0 }

/-- Send a signal. -/
def kill (args : List String) : Running Unit := do
  let probe := args.contains "-0"
  let targets := args.filter fun a => !a.startsWith "-"
  if targets.contains processNumber then
    if probe then finish 0 else throw .killed
  else complain "kill: No such process" 1

/-- The number behind a builtin, or a default. -/
def numberOr (name : String) (default : Nat) (args : List String) : Running Nat := do
  match args with
  | [] => return default
  | a :: _ =>
    match decimal? a with
    | some n => return n
    | none => do
      let bash := (← get).dialect = .bash
      if bash then
        match Arithmetic.numberOf a with
        | .ok k => return (k % 256).toNat
        | .error _ => fatal (name ++ ": " ++ a ++ ": numeric argument required") 2
      else fatal (name ++ ": Illegal number: " ++ a) 2

/-- Leave loops or start one again; outside of loops there is nothing to leave. -/
def leaveLoop (name : String) (flow : Nat → Flow) (args : List String) : Running Unit := do
  let n ← numberOr name 1 args
  let s ← get
  finish 0
  if 0 < s.loopDepth then throw (flow n)
  else if s.dialect = .bash then
    complain (name ++ ": only meaningful in a \x60for', \x60while', or \x60until' loop") 0

/-- Do a builtin that needs nothing but the state, if there is one of a name. -/
def builtin? (name : String) : Option (List String → Running Unit) :=
  match name with
  | ":" => some fun _ => finish 0
  | "exit" => some fun args => do
    finish ((← numberOr name (← get).status args) % 256)
    throw .exit
  | "return" => some fun args => do
    let s ← get
    if s.dialect = .bash && s.functionDepth = 0 then
      complain "return: can only \x60return' from a function or sourced script" 2
    else
      finish ((← numberOr name s.status args) % 256)
      throw .back
  | "break" => some fun args => leaveLoop name .leave args
  | "continue" => some fun args => leaveLoop name .again args
  | "cd" => some cd
  | "pwd" => some fun _ => do
    say ("/" ++ "/".intercalate (← get).current ++ "\n")
    finish 0
  | "set" => some fun args => modify fun s => { setOptions s.dialect s args with status := 0 }
  | "shift" => some fun args => do
    let n ← numberOr name 1 args
    let s ← get
    if s.params.length < n then
      if s.dialect = .bash then finish 1 else fatal "shift: can't shift that many" 2
    else set { s with params := s.params.drop n, status := 0 }
  | "unset" => some unset
  | "export" => some fun args => do
    let args := args.filter fun a => !a.startsWith "-"
    declare args
    modify fun s => { s with exported := args.map givenName ++ s.exported }
  | "readonly" => some fun args => do
    let args := args.filter fun a => !a.startsWith "-"
    declare args
    modify fun s => { s with constants := args.map givenName ++ s.constants }
  | "local" | "declare" | "typeset" => some fun args => do
    let args := args.filter fun a => !a.startsWith "-"
    let s ← get
    if 0 < s.functionDepth then
      let saved := args.map fun a => (givenName a, s.bindings.lookup (givenName a))
      set { s with outer := saved ++ s.outer }
    declare args
  | "read" => some readVariables
  | "kill" => some kill
  | "trap" => some fun args => modify fun s =>
    match args with
    | [script, "EXIT"] | [script, "0"] => { s with atExit := some script, status := 0 }
    | _ => { s with status := 0 }
  | "wait" => some fun _ => do
    let s ← get
    finish 0
    wait (s.backgroundEnd - s.clock)
  | "umask" | "hash" | "ulimit" => some fun _ => finish 0
  | _ => none

/-- Tell what commands are. -/
def runTypes : List String → Running Unit
  | [] => finish 0
  | name :: rest => do
    runTypes rest
    let builtinUtilities := ["echo", "printf", "test", "[", "true", "false"]
    if (builtin? name).isSome || builtinUtilities.contains name then
      say (name ++ " is a shell builtin\n")
    else if (utility? name).isSome then say (name ++ " is /usr/bin/" ++ name ++ "\n")
    else if (← get).dialect = .bash then complain ("type: " ++ name ++ ": not found") 1
    else grumble (name ++ ": not found") 127

/-- The name of a command without the directories where commands are. -/
def commandName (name : String) : String :=
  if name.startsWith "/bin/" then (name.drop 5).toString
  else if name.startsWith "/usr/bin/" then (name.drop 9).toString
  else name

/-- Tell that there is no such command. -/
def notFound (name : String) : Running Unit := do
  let s ← get
  let bash := s.dialect = .bash
  if name.contains '/' then
    match s.entry? name with
    | some (.directory _) =>
      complain (name ++ if bash then ": Is a directory" else ": Permission denied") 126
    | some _ => complain (name ++ ": Permission denied") 126
    | none =>
      complain (name ++ if bash then ": No such file or directory" else ": not found") 127
  else complain (name ++ if bash then ": command not found" else ": not found") 127

/-! ## Redirects -/

/-- Tell that a file cannot be opened, or made. -/
def notOpened (path : String) (making : Bool) (e : FileError) : Running Bool := do
  let s ← get
  if s.dialect = .bash then complain (path ++ ": " ++ reason e) 1
  else
    let verb := if making then "cannot create " else "cannot open "
    let why := match e with
      | .notFound => if making then "Directory nonexistent" else "No such file"
      | e => reason e
    complain (verb ++ path ++ ": " ++ why) 2
  return false

/-- A descriptor leads to a file that is made or emptied. -/
def redirectTo (fd : Nat) (path : String) (keep : Bool) : Running Bool := do
  if path = nullPath then
    modify (·.setDescriptor fd (some .null))
    return true
  if path = "/dev/stdout" || path = "/dev/stderr" then
    modify fun s => s.setDescriptor fd (s.descriptor? (if path = "/dev/stdout" then 1 else 2))
    return true
  let s ← get
  match s.target path with
  | .error e => notOpened path true e
  | .ok there =>
    let before := match s.files.entry? there with
      | some (.file content) => if keep then content else []
      | _ => []
    set ({ s with files := FileTree.put there (.file before) s.files }.setDescriptor fd
      (some (.file there)))
    return true

/-- Change a descriptor; the target is expanded. Tells whether that was done. -/
def redirect (r : Redirect) (target : String) : Running Bool := do
  match r.kind with
  | .input => do
    match ← readPath target with
    | .ok data => do
      modify (·.feed r.descriptor data)
      return true
    | .error .isDirectory => return true
    | .error e => notOpened target false e
  | .output => redirectTo r.descriptor target false
  | .append => redirectTo r.descriptor target true
  | .both => do
    let done ← redirectTo 1 target false
    modify fun s => s.setDescriptor 2 (s.descriptor? 1)
    return done
  | .text newline => do
    modify (·.feed r.descriptor (Bytes.ofString (if newline then target ++ "\n" else target)))
    return true
  | .duplicate =>
    if target = "-" then
      modify (·.setDescriptor r.descriptor none)
      return true
    else do
      let s ← get
      match decimal? target with
      | some n =>
        match s.descriptor? n with
        | some d => do
          set (s.setDescriptor r.descriptor (some d))
          return true
        | none => do
          complain (target ++ ": Bad file descriptor") (if s.dialect = .bash then 1 else 2)
          return false
      | none =>
        if s.dialect = .bash then do
          let done ← redirectTo 1 target false
          modify fun s => s.setDescriptor 2 (s.descriptor? 1)
          return done
        else fatal ("Bad fd number") 2

/-! ## Expansion and execution -/

/-- Whether a word has the output of a script in it. -/
def hasOutput (w : Word) : Bool :=
  w.any fun
    | .output .. => true
    | _ => false

/-- The words of a value that is given. -/
def Given.words : Given → List Word
  | .word w | .more w => [w]
  | .array ws | .moreItems ws => ws

/-- How many levels and rounds there are. -/
def maxSteps : Nat := 100000

mutual

/-- Expand the parts of a word. -/
def expandParts : Nat → Word → Running (List Item)
  | 0, _ => throw .expired
  | _, [] => return []
  | n + 1, part :: rest => do
    let items ← match part with
      | .plain s => pure (itemsOf .plain s)
      | .literal s => pure (.presence :: itemsOf .quoted s)
      | .parameter q name index t word more => expandParameter n q name index t word more
      | .output q script => do
        let d := (← get).dialect
        let data ← captured (runText n d "" script)
        let text := Bytes.lossyText (data.filter (· != 0))
        pure (valueItems q (String.ofList (dropEndWhile (· == '\n') text.toList)))
      | .arithmetic q e => do
        let text := joinedText (← expandParts n e)
        pure (valueItems q (toString (← evaluate text)))
    return items ++ (← expandParts n rest)

/-- Evaluate an expression. -/
def evaluate (text : String) : Running Int := do
  let s ← get
  let status := if s.dialect = .bash then 1 else 2
  let valueOf (name : String) : String := (s.parameter? name).getD ""
  let result := do (← Arithmetic.parse s.dialect text).eval valueOf []
  match result with
  | .ok (value, changed) => do
    set (changed.foldr (fun (name, v) s => s.setVariable name (.text v)) s)
    return value
  | .error e => fatal (arithmeticMessage s.dialect text e) status

/-- Expand a parameter. -/
def expandParameter : Nat → Bool → String → Option String → Treatment → List WordPart →
    List WordPart → Running (List Item)
  | 0, _, _, _, _, _, _ => throw .expired
  | n + 1, q, name, index, t, word, more => do
    let s ← get
    let several : Option (List String) := match name, index with
      | "@", none | "*", none => some s.params
      | _, some "@" | _, some "*" => some (s.items name)
      | _, _ => none
    let value ← match index with
      | none => pure (s.parameter? name)
      | some "@" | some "*" => pure (s.items name).head?
      | some i => do
        let i ← evaluate i
        let items := (← get).items name
        pure (items[(if i < 0 then i + items.length else i).toNat]?)
    let star := name = "*" || index = some "*"
    let separator := String.ofList (s.separators.take 1)
    let whole : List Item := match several with
      | some values =>
        if q && star then valueItems true (separator.intercalate values) else fieldItems q values
      | none => valueItems q (value.getD "")
    let missing (orEmpty : Bool) : Bool := match several with
      | some values => values.isEmpty || (orEmpty && values.all (·.isEmpty))
      | none => value.isNone || (orEmpty && value = some "")
    match t with
    | .value =>
      if s.options.demandSet && several.isNone && value.isNone then
        if s.dialect = .bash then fatal (name ++ ": unbound variable") 127
        else fatal (name ++ ": parameter not set") 2
      else return whole
    | .length =>
      let length := match several with
        | some values => values.length
        | none => (Bytes.ofString (value.getD "")).length
      return valueItems q (toString length)
    | .fallback orEmpty =>
      if missing orEmpty then return (← expandParts n word).map asExpanded else return whole
    | .assign orEmpty =>
      if missing orEmpty then
        let text := joinedText (← expandParts n word)
        modify (·.setVariable name (.text text))
        return valueItems q text
      else return whole
    | .replacement orEmpty =>
      if missing orEmpty then return (if q then [.presence] else [])
      else return (← expandParts n word).map asExpanded
    | .demand orEmpty =>
      if missing orEmpty then
        let text := joinedText (← expandParts n word)
        let bash := s.dialect = .bash
        let standard := if orEmpty then "parameter not set or null" else "parameter not set"
        let standard := if bash && orEmpty then "parameter null or not set"
          else if bash then "parameter not set" else standard
        fatal (name ++ ": " ++ (if text = "" then standard else text)) (if bash then 127 else 2)
      else return whole
    | .dropStart longest => do
      let glob := Glob.ofField (joinedField (← expandParts n word))
      return valueItems q (String.ofList (dropMatchingStart longest glob (value.getD "").toList))
    | .dropEnd longest => do
      let glob := Glob.ofField (joinedField (← expandParts n word))
      return valueItems q (String.ofList (dropMatchingEnd longest glob (value.getD "").toList))
    | .slice => do
      let parts := (← expandText n word).splitOn ":"
      let start ← evaluate (parts.headD "")
      let length ← match parts.drop 1 with
        | [] => pure none
        | k :: _ => do pure (some (← evaluate k))
      match several with
      | some values =>
        let values := if index.isNone && start ≠ 0 then s.name :: values else values
        return fieldItems q (sliceOf start length values)
      | none => return valueItems q (String.ofList (sliceOf start length (value.getD "").toList))
    | .substitute place => do
      let glob := Glob.ofField (joinedField (← expandParts n word))
      let content ← expandText n more
      let change (v : String) : String :=
        String.ofList (substituted place glob content.toList v.toList)
      match several with
      | some values => return fieldItems q (values.map change)
      | none => return valueItems q (change (value.getD ""))
    | .letterCase upper all =>
      let change (v : String) : String := String.ofList (changeCase upper all v.toList)
      match several with
      | some values => return fieldItems q (values.map change)
      | none => return valueItems q (change (value.getD ""))
    | .bad =>
      if s.dialect = .bash then fatal ("$\x7b" ++ name ++ "\x7d: bad substitution") 1
      else fatal "Bad substitution" 2

/-- Expand words to the words of a command. -/
def expandWords : Nat → List Word → Running (List String)
  | 0, _ => throw .expired
  | _, [] => return []
  | n + 1, w :: rest => do
    let items ← expandParts n w
    let s ← get
    let words := (splitItems s.separators items).flatMap s.words
    return words ++ (← expandWords n rest)

/-- Expand words, each to one field. -/
def expandFields : Nat → List Word → Running (List Field)
  | 0, _ => throw .expired
  | _, [] => return []
  | n + 1, w :: rest => do
    let field := joinedField (← expandParts n w)
    return field :: (← expandFields n rest)

/-- Expand a word to one text. -/
def expandText : Nat → Word → Running String
  | 0, _ => throw .expired
  | n + 1, w => do return joinedText (← expandParts n w)

/-- Give a value to a variable. -/
def assign : Nat → Assignment → Running Unit
  | 0, _ => throw .expired
  | n + 1, a => do
    let s ← get
    if s.constants.contains a.name then
      if s.dialect = .bash then fatal (a.name ++ ": readonly variable") 1
      else fatal (a.name ++ ": is read only") 2
    match a.given with
    | .array ws => do
      let items ← expandWords n ws
      modify (·.setVariable a.name (.array items))
    | .moreItems ws => do
      let items ← expandWords n ws
      modify fun s => s.setVariable a.name (.array (s.items a.name ++ items))
    | .word w | .more w => do
      let text ← expandText n w
      let i ← match a.index with
        | some i => do pure (some (← evaluate i).toNat)
        | none => pure none
      let s ← get
      let add := match a.given with
        | .more _ => true
        | _ => false
      let v : Variable := match i with
        | some i =>
          let items := s.items a.name
          let items := items ++ List.replicate (i + 1 - items.length) ""
          let before := if add then items.getD i "" else ""
          .array (items.set i (before ++ text))
        | none =>
          match s.bindings.lookup a.name with
          | some (.array items) =>
            .array ((if add then items.headD "" ++ text else text) :: items.drop 1)
          | _ => .text (if add then (s.text? a.name).getD "" ++ text else text)
      set (s.setVariable a.name v)

/-- Give values to variables. -/
def assignAll : Nat → List Assignment → Running Unit
  | 0, _ => throw .expired
  | _, [] => pure ()
  | n + 1, a :: rest => do
    assign n a
    assignAll n rest

/-- Change descriptors; tells whether that was done. -/
def redirectAll : Nat → List Redirect → Running Bool
  | 0, _ => throw .expired
  | _, [] => return true
  | n + 1, r :: rest => do
    let target ← expandText n r.target
    if ← redirect r target then redirectAll n rest else return false

/-- Run a command. -/
def exec : Nat → Command → Running Unit
  | 0, _ => throw .expired
  | n + 1, .simple line as ws rs => do
    modify fun s => { s with line }
    runSimple n as ws rs
    checkFailure
  | n + 1, .pipeline negated cs => do
    let start := (← get).clock
    let work := do
      let statuses ← runPiped n start cs none
      let failure := (statuses.filter (· != 0)).getLast?
      if (← get).options.pipeFails then finish (failure.getD 0)
    if negated then
      tested work
      modify fun s => { s with status := if s.status = 0 then 1 else 0 }
    else
      work
      checkFailure
  | n + 1, .andThen a b => do
    tested (exec n a)
    if (← get).status = 0 then exec n b
  | n + 1, .orElse a b => do
    tested (exec n a)
    if (← get).status ≠ 0 then exec n b
  | n + 1, .sequence cs => execAll n cs
  | n + 1, .background c => inBackground (exec n c)
  | n + 1, .subshell c => do
    inSubshell id (exec n c)
    checkFailure
  | n + 1, .conditional condition positive negative => do
    tested (exec n condition)
    if (← get).status = 0 then exec n positive
    else
      match negative with
      | some c => exec n c
      | none => finish 0
  | n + 1, .loop while_ condition body => runLoop n while_ condition body 0
  | n + 1, .counted line start condition next body => do
    modify fun s => { s with line }
    let _ ← evaluate (← expandText n start)
    runCounted n condition next body 0
  | n + 1, .forEach line name words body => do
    modify fun s => { s with line }
    let values ← match words with
      | some ws => expandWords n ws
      | none => do pure (← get).params
    finish 0
    runForEach n name values body
  | n + 1, .choice line w clauses => do
    modify fun s => { s with line }
    let text ← expandText n w
    finish 0
    runClauses n text clauses
  | _, .function name body => modify fun s =>
    { s with functions := insertKey name body s.functions, status := 0 }
  | n + 1, .condition line words => do
    modify fun s => { s with line }
    let fields ← expandFields n words
    let s ← get
    match Test.evaluate s fields with
    | .ok r => finish (if r then 0 else 1)
    | .error e => complain ("[[: " ++ e.message s.dialect) 2
    checkFailure
  | n + 1, .arithmetic line e => do
    modify fun s => { s with line }
    let text ← expandText n e
    let value ← evaluate text
    finish (if value = 0 then 1 else 0)
    checkFailure
  | n + 1, .redirected line c rs => do
    if line ≠ 0 then modify fun s => { s with line }
    keepDescriptors do
      if ← redirectAll n rs then exec n c

/-- Run commands one after another. -/
def execAll : Nat → List Command → Running Unit
  | 0, _ => throw .expired
  | _, [] => pure ()
  | n + 1, c :: rest => do
    exec n c
    execAll n rest

/-- Run commands that are piped together; all of them start at a time. Gives the status of
each. -/
def runPiped : Nat → Nat → List Command → Option Bytes → Running (List Nat)
  | 0, _, _, _ => throw .expired
  | _, _, [], _ => return []
  | n + 1, start, c :: rest, input => do
    let s ← get
    let channel := s.channels.length
    let setup (s : State) : State :=
      let s := (input.map (s.feed 0)).getD s
      if rest.isEmpty then s else s.collect
    set { s with clock := start }
    inSubshell setup (exec n c)
    let status := (← get).status
    let data := (← get).collected channel
    let more ← runPiped n start rest (some data)
    modify fun after => { after with clock := max s.clock after.clock }
    return status :: more

/-- Run the rounds of a loop; the status is that of the last one. -/
def runLoop : Nat → Bool → Command → Command → Nat → Running Unit
  | 0, _, _, _, _ => throw .expired
  | n + 1, while_, condition, body, last => do
    tested (exec n condition)
    if ((← get).status = 0) = while_ then
      if ← inLoop (exec n body) then
        let status := (← get).status
        runLoop n while_ condition body status
      else finish 0
    else finish last

/-- Run the rounds of a loop that counts; no condition always holds. -/
def runCounted : Nat → Word → Word → Command → Nat → Running Unit
  | 0, _, _, _, _ => throw .expired
  | n + 1, condition, next, body, last => do
    let text ← expandText n condition
    let value ← if text.trimAscii.isEmpty then pure 1 else evaluate text
    if value = 0 then finish last
    else if ← inLoop (exec n body) then
      let status := (← get).status
      let _ ← evaluate (← expandText n next)
      runCounted n condition next body status
    else finish 0

/-- Run a command for each value of a variable. -/
def runForEach : Nat → String → List String → Command → Running Unit
  | 0, _, _, _ => throw .expired
  | _, _, [], _ => pure ()
  | n + 1, name, value :: rest, body => do
    modify (·.setVariable name (.text value))
    if ← inLoop (exec n body) then runForEach n name rest body

/-- Run the first clause with a pattern that a text matches. -/
def runClauses : Nat → String → List (List Word × Command) → Running Unit
  | 0, _, _ => throw .expired
  | _, _, [] => pure ()
  | n + 1, text, (patterns, body) :: rest => do
    let fields ← expandFields n patterns
    if fields.any fun f => Glob.accepts (Glob.ofField f) text.toList then exec n body
    else runClauses n text rest

/-- Run a simple command. -/
def runSimple : Nat → List Assignment → List Word → List Redirect → Running Unit
  | 0, _, _, _ => throw .expired
  | n + 1, as, ws, rs => do
    let words ← expandWords n (ws.flatMap (bracesOf (← get).dialect))
    match words with
    | [] => keepDescriptors do
      if ← redirectAll n rs then
        assignAll n as
        if !(ws ++ as.flatMap (·.given.words)).any hasOutput then finish 0
    | ["exec"] => do
      let _ ← redirectAll n rs
    | name :: args => keepDescriptors do
      if ← redirectAll n rs then
        let before := (← get).bindings
        assignAll n as
        let exported := (← get).exported
        modify fun s => { s with exported := as.map (·.name) ++ exported }
        runNamed n name args
        modify fun s => as.foldl (fun s a => s.restore a.name (before.lookup a.name))
          { s with exported }

/-- Run a function, a builtin or a utility. -/
def runNamed : Nat → String → List String → Running Unit
  | 0, _, _ => throw .expired
  | n + 1, name, args => do
    let s ← get
    match s.functions.lookup name with
    | some body => inFunction args (exec n body)
    | none =>
      match name with
      | "eval" => runText n s.dialect "eval" (" ".intercalate args)
      | "exec" => do
        let name := args.headD ""
        if (utility? (commandName name)).isSome || ["sh", "bash", "dash", "env"].contains name then
          runNamed n name (args.drop 1)
        else complain ("exec: " ++ name ++ ": not found") 127
        throw .exit
      | "type" => runTypes args
      | "command" =>
        match args with
        | "-v" :: found :: _ =>
          if (builtin? found).isSome || (utility? found).isSome then
            say (found ++ "\n")
            finish 0
          else finish (if s.dialect = .bash then 1 else 127)
        | found :: args => runNamed n found args
        | [] => finish 0
      | "." | "source" =>
        if name = "source" && s.dialect = .standard then notFound name
        else match ← readPath (args.headD "") with
        | .ok data => runText n s.dialect "" (Bytes.lossyText data)
        | .error e =>
          if s.dialect = .bash then complain (args.headD "" ++ ": " ++ reason e) 1
          else fatal (".: cannot open " ++ args.headD "" ++ ": No such file") 2
      | "let" => do
        let values ← (args.mapM evaluate)
        finish (if values.getLast?.any (· ≠ 0) then 0 else 1)
      | "env" | "nohup" | "time" | "xargs" =>
        if name = "xargs" then do
          let words := (splitItems [' ', '\t', '\n']
            (itemsOf .expanded (Bytes.lossyText (← takeInput)))).map Field.text
          let args := if args.isEmpty then ["echo"] else args
          inSubshell id (runNamed n (args.headD "") (args.drop 1 ++ words))
        else runNamed n (args.headD "true") (args.drop 1)
      | "sh" | "bash" | "dash" =>
        match args with
        | "-c" :: script :: rest =>
          let dialect : Dialect := if name = "bash" then .bash else .standard
          runShell n dialect script (rest.headD name) (rest.drop 1)
        | _ => finish 0
      | _ =>
        match (builtin? name).orElse fun _ => utility? (commandName name) with
        | some act => act args
        | none => notFound name

/-- Run a script in a shell that knows nothing of this one. -/
def runShell : Nat → Dialect → String → String → List String → Running Unit
  | 0, _, _, _, _ => throw .expired
  | n + 1, dialect, script, name, params => fun s =>
    let setup (s : State) : State :=
      let bindings := s.bindings.filter fun (key, _) => s.exported.contains key
      { s with dialect, name, params, bindings, functions := [], options := {} }
    match inSubshell setup (runText n dialect "" script) s with
    | (.error .killed, s) => (.ok (), { s with status := 137 })
    | r => r

/-- Run the lines of a script, which a builtin may have been given. -/
def runText : Nat → Dialect → String → String → Running Unit
  | 0, _, _, _ => throw .expired
  | n + 1, dialect, builtin, text => do
    let script := Script.ofText dialect text
    if script.lines.isEmpty then finish 0
    execAll n script.lines
    match script.error with
    | some e => do
      tellSyntaxError builtin text e
      throw .exit
    | none => pure ()

end

/-! ## Shells -/

/-- How a shell ends. -/
inductive Result where
  | ended (status : Nat) (output errors : Bytes)
  /-- A signal has ended it. -/
  | killed (errors : Bytes)
  /-- It would not end in time. -/
  | expired
  deriving Repr, Inhabited

/-- Run a script, and then what is to be run at its end. -/
def runScript (s : State) (text : String) : Except Flow Unit × State :=
  match runText maxSteps s.dialect "" text s with
  | (.error .expired, after) => (.error .expired, after)
  | (.error .killed, after) => (.error .killed, after)
  | (_, after) =>
    match after.atExit with
    | none => (.ok (), after)
    | some last =>
      let (r, ended) := runText maxSteps s.dialect "" last { after with atExit := none }
      match r with
      | .error .exit => (.ok (), ended)
      | .error f => (.error f, ended)
      | .ok () => (.ok (), { ended with status := after.status })

/-- The end of a shell started in a state with a script, and the files then. -/
def run (s : State) (text : String) : Result × FileTree :=
  let (r, s) := runScript s text
  let late := s.deadline.any (· ≤ max s.clock s.backgroundEnd)
  let result : Result := match r with
    | .error .expired => .expired
    | .error .killed => .killed (s.collected 1)
    | _ => if late then .expired else .ended s.status (s.collected 0) (s.collected 1)
  (result, s.files)

end Distill.Shell
