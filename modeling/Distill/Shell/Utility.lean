import Distill.Shell.Matching
import Distill.Shell.Printf
import Distill.Shell.Sed
import Distill.Shell.Test

/-!
# Utilities

The commands that read input and files and write output, and change nothing in the
shell but its status.

## Main definitions

* `Shell.utility?` — the utility of a name.
-/

namespace Distill.Shell

/-! ## Operands -/

/-- The options before the operands, each a letter with its value if it takes one, and the
operands. -/
def splitOptions (valued : List Char) : List String → List (Char × String) × List String
  | [] => ([], [])
  | arg :: rest =>
    if arg = "--" then ([], rest)
    else if arg.startsWith "-" && arg.length > 1 && !arg.startsWith "--" then
      let letters := arg.toList.drop 1
      let flags := letters.takeWhile (!valued.contains ·)
      let plain := flags.map fun c => (c, "")
      match letters.drop flags.length with
      | [] =>
        let (options, operands) := splitOptions valued rest
        (plain ++ options, operands)
      | [c] =>
        match rest with
        | value :: rest =>
          let (options, operands) := splitOptions valued rest
          (plain ++ (c, value) :: options, operands)
        | [] => (plain ++ [(c, "")], [])
      | c :: value =>
        let (options, operands) := splitOptions valued rest
        (plain ++ (c, String.ofList value) :: options, operands)
    else
      let (options, operands) := splitOptions valued rest
      (options, arg :: operands)

/-- Whether an option is given. -/
def hasOption (options : List (Char × String)) (c : Char) : Bool := options.any (·.1 == c)

/-- The value of the last option of a letter. -/
def optionValue? (options : List (Char × String)) (c : Char) : Option String :=
  (options.filter (·.1 == c)).getLast?.map (·.2)

/-- The lines of data without their ends. -/
def dataLines (data : Bytes) : List Bytes :=
  let (last, before) := data.foldr (fun b (here, done) =>
    if b = 10 then (([] : Bytes), here :: done) else (b :: here, done)) ([], [])
  match (last :: before).getLast? with
  | some [] => (last :: before).dropLast
  | _ => last :: before

/-- Lines with their ends. -/
def joinLines (lines : List Bytes) : Bytes := lines.flatMap (· ++ [10])

/-- The data of operands one after another; those that cannot be read are told. -/
def readOperands (name : String) (told : String → FileError → String) (status : Nat) :
    List String → Running (List (String × Bytes))
  | [] => return []
  | path :: rest => do
    match ← readPath path with
    | .ok data => return (path, data) :: (← readOperands name told status rest)
    | .error e => do
      grumble (name ++ ": " ++ told path e) status
      readOperands name told status rest

/-- The message about a file that cannot be read. -/
def toldPlain (path : String) (e : FileError) : String := path ++ ": " ++ reason e

/-- The message about a file that cannot be opened. -/
def toldOpen (path : String) (e : FileError) : String :=
  if e = .isDirectory then "error reading '" ++ path ++ "': " ++ reason e
  else "cannot open '" ++ path ++ "' for reading: " ++ reason e

/-- The data of operands, or of the input if there are none. -/
def readAll (name : String) (told : String → FileError → String) (status : Nat)
    (paths : List String) : Running (List (String × Bytes)) := do
  finish 0
  if paths.isEmpty then return [("", ← takeInput)]
  readOperands name told status paths

/-! ## Text utilities -/

/-- Copy files to the output. -/
def cat (args : List String) : Running Unit := do
  let (options, paths) := splitOptions [] args
  let files ← readAll "cat" toldPlain 1 paths
  let data := files.flatMap (·.2)
  if hasOption options 'n' then
    put (joinLines ((dataLines data).zipIdx.map fun (line, i) =>
      let number := toString (i + 1)
      let margin := String.ofList (List.replicate (6 - number.length) ' ')
      Bytes.ofString (margin ++ number ++ "\t") ++ line))
  else put data

/-- The count of an option, or of an option that is itself a number. -/
def countOption? (args : List String) (letter : Char) : Option String × List String :=
  match args with
  | arg :: rest =>
    let digits := (arg.drop 1).toString
    if letter = 'n' && arg.startsWith "-" && (decimal? digits).isSome then (some digits, rest)
    else
      let (options, paths) := splitOptions ['n', 'c'] args
      (optionValue? options letter, paths)
  | [] => (none, [])

/-- The first or the last parts of a list by a count, which may be relative to the other
end. -/
def firstParts {α : Type} (count : String) (parts : List α) : List α :=
  match decimal? count with
  | some n => parts.take n
  | none => parts.take (parts.length - ((decimal? (count.drop 1).toString).getD 0))

/-- The last parts of a list by a count, or those from a place on. -/
def lastParts {α : Type} (count : String) (parts : List α) : List α :=
  match decimal? count with
  | some n => parts.drop (parts.length - n)
  | none =>
    let n := (decimal? (count.drop 1).toString).getD 0
    if count.startsWith "+" then parts.drop (n - 1) else parts.drop (parts.length - n)

/-- The lines of data with their ends, as far as they have one. -/
def wholeLines (data : Bytes) : List Bytes :=
  let lines := (dataLines data).map (· ++ [10])
  if data.getLast? = some 10 then lines
  else
    match lines.getLast? with
    | some last => lines.dropLast ++ [last.dropLast]
    | none => []

/-- Write a part of each file. -/
def excerptOf (name : String) (part : {α : Type} → String → List α → List α) (args : List String) :
    Running Unit := do
  let (lines, paths) := countOption? args 'n'
  let (octets, _) := countOption? args 'c'
  let files ← readAll name toldOpen 1 paths
  for (path, data) in files, i in List.range files.length do
    if 1 < paths.length then
      say ((if i = 0 then "" else "\n") ++ "==> " ++ path ++ " <==\n")
    match octets with
    | some n => put (part n data)
    | none => put (part (lines.getD "10") (wholeLines data)).flatten

/-- Count lines, words and octets. -/
def wc (args : List String) : Running Unit := do
  let (options, paths) := splitOptions [] args
  let files ← readAll "wc" toldPlain 1 paths
  let letters := options.map (·.1)
  let shown := if letters.isEmpty then ['l', 'w', 'c'] else
    ['l', 'w', 'm', 'c'].filter letters.contains
  let count (c : Char) (data : Bytes) : Nat :=
    match c with
    | 'l' => (data.filter (· == 10)).length
    | 'w' =>
      (data.foldl (fun (n, inside) b =>
        let blank := b = 32 || (9 ≤ b && b ≤ 13)
        (if !blank && !inside then n + 1 else n, !blank)) (0, false)).1
    | 'm' => (Bytes.lossyText data).length
    | _ => data.length
  let size := (files.flatMap (·.2)).length
  let width := if paths.isEmpty then (if shown.length = 1 then 1 else 7)
    else if shown.length = 1 && files.length = 1 then 1 else (toString size).length
  let row (counts : List Nat) (path : String) : String :=
    let cells := counts.map fun n =>
      let t := toString n
      String.ofList (List.replicate (width - t.length) ' ') ++ t
    " ".intercalate cells ++ (if path = "" then "" else " " ++ path) ++ "\n"
  let rows := files.map fun (path, data) => (shown.map (count · data), path)
  for (counts, path) in rows do
    say (row counts path)
  if 1 < rows.length then
    say (row (shown.map fun c => count c (files.flatMap (·.2))) "total")

/-- The files at or below paths, where directories are read with all that is in them. -/
def filesBelow (s : State) (paths : List String) : List String :=
  paths.flatMap fun path =>
    match s.resolve path with
    | .ok there =>
      if s.files.hasDirectory there then
        (FileTree.files (FileTree.entriesOf (s.files.entry? there))).map fun (below, _) =>
          path ++ "/" ++ "/".intercalate below
      else [path]
    | .error _ => [path]

/-- Write the lines that match. -/
def grep (args : List String) : Running Unit := do
  let (options, operands) := splitOptions ['e', 'm', 'A', 'B', 'C'] args
  let given := hasOption options
  let expressions := (options.filter (·.1 == 'e')).map (·.2)
  let (expressions, paths) := if expressions.isEmpty then (operands.take 1, operands.drop 1)
    else (expressions, operands)
  let style : Notation := if given 'F' then .literal
    else if given 'E' || given 'P' then .extended else .plain
  let text := "|".intercalate (expressions.map style.patternText)
  let text := if given 'w' then "\\b(?:" ++ text ++ ")\\b" else text
  let text := if given 'x' then "^(?:" ++ text ++ ")$" else text
  let text := if given 'i' then "(?i)" ++ text else text
  match Pattern.parse? text with
  | none => grumble "grep: Invalid regular expression" 2
  | some p =>
    let quiet := given 'q'
    let recursive := given 'r' || given 'R'
    let s ← get
    let paths := if recursive then filesBelow s (if paths.isEmpty then ["."] else paths) else paths
    let files ← readAll "grep" toldPlain 2 paths
    let failed := (← get).status
    let hits (data : Bytes) : List (Bytes × Nat) :=
      (dataLines data).zipIdx.filter fun (line, _) => p.isMatch (Bytes.lossyText line) != given 'v'
    let named := (1 < paths.length || given 'H' || recursive) && !given 'h'
    for (path, data) in files do
      let found := hits data
      let found := match (optionValue? options 'm').bind decimal? with
        | some n => found.take n
        | none => found
      let start := if named then path ++ ":" else ""
      if quiet then pure ()
      else if given 'l' then
        if !found.isEmpty then say (path ++ "\n")
      else if given 'c' then say (start ++ toString found.length ++ "\n")
      else
        for (line, i) in found do
          let number := if given 'n' then toString (i + 1) ++ ":" else ""
          if given 'o' then
            let cs := (Bytes.lossyText line).toList
            for (first, stop) in allMatches p cs (cs.length + 1) 0 do
              if first < stop then
                say (start ++ number ++ String.ofList ((cs.take stop).drop first) ++ "\n")
          else put (Bytes.ofString (start ++ number) ++ line ++ [10])
    let found := files.any fun (_, data) => !(hits data).isEmpty
    finish (if found && (quiet || failed = 0) then 0 else if failed ≠ 0 then failed else 1)

/-- Edit lines. -/
def sed (args : List String) : Running Unit := do
  let (options, operands) := splitOptions ['e', 'f'] args
  let scripts := (options.filter (·.1 == 'e')).map (·.2)
  let (scripts, paths) := if scripts.isEmpty then (operands.take 1, operands.drop 1)
    else (scripts, operands)
  let style : Notation :=
    if hasOption options 'E' || hasOption options 'r' then .extended else .plain
  let script := ("\n".intercalate scripts).toList
  match Edit.read? style (script.length + 1) script with
  | none => grumble "sed: -e expression #1, char 0: unknown command" 1
  | some edits =>
    let told (path : String) (e : FileError) := "can't read " ++ path ++ ": " ++ reason e
    let files ← readAll "sed" told 2 paths
    let lines := (files.flatMap fun (_, data) => dataLines data).map fun l =>
      (Bytes.lossyText l).toList
    let silent := hasOption options 'n'
    let out := editLines silent 1 (edits.map (·, false)) lines
    say (String.join (out.map fun l => String.ofList l ++ "\n"))

/-- Whether data comes before other data. -/
def bytesBefore : Bytes → Bytes → Bool
  | [], _ => true
  | _ :: _, [] => false
  | a :: x, b :: y => if a = b then bytesBefore x y else a < b

/-- The number at the start of a line. -/
def leadingNumber (line : Bytes) : Int :=
  let cs := (Bytes.lossyText line).toList.dropWhile (· == ' ')
  let (negative, cs) := match cs with
    | '-' :: rest => (true, rest)
    | _ => (false, cs)
  let n := (decimal? (String.ofList (cs.takeWhile Char.isDigit))).getD 0
  if negative then -(n : Int) else n

/-- Lines without those equal to the one before. -/
def dropRepeated {α : Type} (same : α → α → Bool) : List α → List α
  | a :: b :: rest =>
    if same a b then dropRepeated same (a :: rest) else a :: dropRepeated same (b :: rest)
  | ls => ls
termination_by ls => ls.length

/-- Write lines in order. -/
def sortLines (args : List String) : Running Unit := do
  let (options, paths) := splitOptions ['k', 't', 'o'] args
  let told (path : String) (e : FileError) := "cannot read: " ++ path ++ ": " ++ reason e
  let files ← readAll "sort" told 2 paths
  let given := hasOption options
  let before (a b : Bytes) : Bool :=
    if given 'n' then
      let (x, y) := (leadingNumber a, leadingNumber b)
      if x = y then given 'u' || bytesBefore a b else x < y
    else bytesBefore a b
  let lines := files.flatMap fun (_, data) => dataLines data
  let order (a b : Bytes) : Bool := if given 'r' then before b a else before a b
  let sorted := lines.mergeSort order
  let same (a b : Bytes) : Bool :=
    if given 'n' then leadingNumber a = leadingNumber b else a = b
  if (← get).status = 0 then
    put (joinLines (if given 'u' then dropRepeated same sorted else sorted))

/-- Lines that are equal and follow one another, with their numbers. -/
def runsOf : List Bytes → List (Bytes × Nat)
  | [] => []
  | line :: rest =>
    match runsOf rest with
    | (other, n) :: more =>
      if line = other then (other, n + 1) :: more else (line, 1) :: (other, n) :: more
    | [] => [(line, 1)]

/-- Write lines once that are equal and follow one another. -/
def uniq (args : List String) : Running Unit := do
  let (options, paths) := splitOptions [] args
  let files ← readAll "uniq" toldPlain 1 (paths.take 1)
  let runs := runsOf (files.flatMap fun (_, data) => dataLines data)
  let runs := if hasOption options 'd' then runs.filter (1 < ·.2)
    else if hasOption options 'u' then runs.filter (·.2 == 1) else runs
  for (line, n) in runs do
    if hasOption options 'c' then
      let t := toString n
      say (String.ofList (List.replicate (7 - t.length) ' ') ++ t ++ " ")
    put (line ++ [10])

/-- The classes of characters that have a name. -/
def namedClass (name : String) : List Char :=
  let range (a b : Char) : List Char :=
    (List.range (b.toNat + 1 - a.toNat)).map fun i => Char.ofNat (a.toNat + i)
  match name with
  | "upper" => range 'A' 'Z'
  | "lower" => range 'a' 'z'
  | "digit" => range '0' '9'
  | "alpha" => range 'A' 'Z' ++ range 'a' 'z'
  | "alnum" => range '0' '9' ++ range 'A' 'Z' ++ range 'a' 'z'
  | "space" => ['\t', '\n', '\x0b', '\x0c', '\r', ' ']
  | "blank" => ['\t', ' ']
  | "punct" => (range '!' '~').filter fun c => !c.isAlphanum
  | _ => []

/-- The characters of a set as they are written for `tr`. -/
def characterSet : Nat → List Char → List Char
  | 0, _ => []
  | _, [] => []
  | n + 1, '[' :: ':' :: rest =>
    let name := rest.takeWhile (· != ':')
    namedClass (String.ofList name) ++ characterSet n (rest.drop (name.length + 2))
  | n + 1, '\\' :: c :: rest =>
    match readEscape {} c rest with
    | some ([b], rest) => Char.ofNat b.toNat :: characterSet n rest
    | _ => c :: characterSet n rest
  | n + 1, a :: '-' :: b :: rest =>
    (List.range (b.toNat + 1 - a.toNat)).map (fun i => Char.ofNat (a.toNat + i)) ++
      characterSet n rest
  | n + 1, c :: rest => c :: characterSet n rest

/-- Octets without those equal to the one before that are in a set. -/
def squeeze (squeezed : UInt8 → Bool) : Bytes → Bytes
  | a :: b :: rest =>
    if a = b && squeezed a then squeeze squeezed (a :: rest) else a :: squeeze squeezed (b :: rest)
  | data => data
termination_by data => data.length

/-- Replace or drop characters of the input. -/
def tr (args : List String) : Running Unit := do
  let (options, sets) := splitOptions [] args
  let octets (s : String) : Bytes :=
    (characterSet s.length s.toList).flatMap fun c => charBytes c
  let first := octets (sets.headD "")
  let second := octets ((sets.drop 1).headD "")
  let data ← takeInput
  finish 0
  let complement := hasOption options 'c' || hasOption options 'C'
  let inFirst (b : UInt8) : Bool := first.contains b != complement
  let given := hasOption options
  if given 'd' then
    let kept := data.filter (!inFirst ·)
    put (if given 's' then squeeze second.contains kept else kept)
  else
    let change (b : UInt8) : UInt8 :=
      if second.isEmpty || !inFirst b then b
      else if complement then second.getLastD b
      else (second[first.idxOf b]?).getD (second.getLastD b)
    let changed := data.map change
    if given 's' then
      put (squeeze (fun b => if second.isEmpty then inFirst b else second.contains b) changed)
    else put changed

/-- The places that a list of ranges names. -/
def inRanges (ranges : String) (i : Nat) : Bool :=
  (ranges.splitOn ",").any fun r =>
    match r.splitOn "-" with
    | [a] => decimal? a = some i
    | [a, b] => ((decimal? a).getD 1) ≤ i && (decimal? b).all (i ≤ ·)
    | _ => false

/-- The fields of a line. -/
def fieldsOf (separator : UInt8) (line : Bytes) : List Bytes :=
  let (last, before) := line.foldr (fun b (here, done) =>
    if b = separator then (([] : Bytes), here :: done) else (b :: here, done)) ([], [])
  last :: before

/-- Write parts of lines. -/
def cutLines (args : List String) : Running Unit := do
  let (options, paths) := splitOptions ['d', 'f', 'c', 'b'] args
  let files ← readAll "cut" toldPlain 1 paths
  let separator := ((optionValue? options 'd').bind fun d => (Bytes.ofString d).head?).getD 9
  let pick {α : Type} (ranges : String) (parts : List α) : List α :=
    (parts.zipIdx.filter fun (_, i) => inRanges ranges (i + 1)).map (·.1)
  for line in files.flatMap fun (_, data) => dataLines data do
    match optionValue? options 'f' with
    | some ranges =>
      let fields := fieldsOf separator line
      if fields.length = 1 then
        if !hasOption options 's' then put (line ++ [10])
      else put ([separator].intercalate (pick ranges fields) ++ [10])
    | none =>
      let ranges := ((optionValue? options 'c').orElse fun _ => optionValue? options 'b').getD ""
      put (pick ranges line ++ [10])

/-- Write a sequence of numbers. -/
def seq (args : List String) : Running Unit := do
  let (separator, operands) := match args with
    | "-w" :: rest => ("\n", rest)
    | "-s" :: s :: rest => (s, rest)
    | arg :: rest => if arg.startsWith "-s" then ((arg.drop 2).toString, rest) else ("\n", args)
    | [] => ("\n", [])
  let numbers := operands.map fun a => (Test.number a).toOption
  let range (a step b : Int) : List Int :=
    let n := if step = 0 then 0 else ((b - a) / step + 1).toNat
    (List.range n).map fun (i : Nat) => a + step * (i : Int)
  finish 0
  let values := match numbers with
    | [some b] => range 1 1 b
    | [some a, some b] => range a 1 b
    | [some a, some step, some b] => range a step b
    | _ => []
  if values.isEmpty then pure () else say (separator.intercalate (values.map toString) ++ "\n")

/-- Write the input in reverse order of its lines. -/
def tac (args : List String) : Running Unit := do
  let files ← readAll "tac" toldPlain 1 args
  put (files.flatMap fun (_, data) => (wholeLines data).reverse.flatten)

/-- Write the characters of each line in reverse order. -/
def rev (args : List String) : Running Unit := do
  let files ← readAll "rev" toldPlain 1 args
  for line in files.flatMap fun (_, data) => dataLines data do
    say (String.ofList (Bytes.lossyText line).toList.reverse ++ "\n")

/-! ## File utilities -/

/-- The names in a directory that are shown. -/
def shownNames (options : List (Char × String)) (names : List String) : List String :=
  if hasOption options 'a' then "." :: ".." :: names
  else if hasOption options 'A' then names
  else names.filter fun name => !name.startsWith "."

/-- List directories. -/
def ls (args : List String) : Running Unit := do
  let (options, paths) := splitOptions [] args
  finish 0
  let s ← get
  let given := if paths.isEmpty then ["."] else paths
  let given := given.mergeSort fun a b => a ≤ b
  for path in given do
    match s.resolve path with
    | .ok _ => pure ()
    | .error e => grumble ("ls: cannot access '" ++ path ++ "': " ++ reason e) 2
  let isDirectory (path : String) : Bool :=
    match s.resolve path with
    | .ok there => s.files.hasDirectory there && !hasOption options 'd'
    | .error _ => false
  let exists_ (path : String) : Bool := (s.resolve path).toOption.isSome
  let plain := given.filter fun path => exists_ path && !isDirectory path
  for path in plain do
    say (path ++ "\n")
  let directories := given.filter isDirectory
  for path in directories, i in List.range directories.length do
    if 1 < given.length then
      say ((if i = 0 && plain.isEmpty then "" else "\n") ++ path ++ ":\n")
    let names := (s.files.names (s.absolute path)).toOption.getD []
    let names := shownNames options names
    for name in if hasOption options 'r' then names.reverse else names do
      say (name ++ "\n")

/-- Make files that are not there. -/
def touch (args : List String) : Running Unit := do
  finish 0
  for path in (splitOptions ['d', 't', 'r'] args).2 do
    let s ← get
    if (s.entry? path).isNone then
      match ← writePath path [] with
      | .ok _ => pure ()
      | .error e => grumble ("touch: cannot touch '" ++ path ++ "': " ++ reason e) 1

/-- Make directories. -/
def mkdir (args : List String) : Running Unit := do
  let (options, paths) := splitOptions ['m'] args
  finish 0
  for path in paths do
    let s ← get
    let told (why : String) :=
      grumble ("mkdir: cannot create directory '" ++ path ++ "': " ++ why) 1
    if (s.entry? path).isSome then
      if hasOption options 'p' && s.files.isDirectory (s.absolute path) then pure ()
      else told "File exists"
    else if hasOption options 'p' then
      set { s with files := FileTree.makeDirectory (s.absolute path) s.files }
    else
      match s.target path with
      | .ok there => set { s with files := FileTree.put there (.directory []) s.files }
      | .error e => told (reason e)

/-- Take files away. -/
def rm (args : List String) : Running Unit := do
  let (options, paths) := splitOptions [] args
  finish 0
  let recursive := hasOption options 'r' || hasOption options 'R'
  for path in paths do
    let s ← get
    let whole := s.absolute path
    match s.files.entry? whole with
    | none =>
      if !hasOption options 'f' then
        grumble ("rm: cannot remove '" ++ path ++ "': No such file or directory") 1
    | some (.directory _) =>
      if recursive then set { s with files := s.files.erase whole }
      else grumble ("rm: cannot remove '" ++ path ++ "': Is a directory") 1
    | some _ => set { s with files := s.files.erase whole }

/-- The last component of a path. -/
def lastName (path : String) : String := (pathComponents path).getLastD "/"

/-- Take empty directories away. -/
def rmdir (args : List String) : Running Unit := do
  finish 0
  for path in (splitOptions [] args).2 do
    let s ← get
    let told (why : String) := grumble ("rmdir: failed to remove '" ++ path ++ "': " ++ why) 1
    match s.files.entry? (s.absolute path) with
    | some (.directory []) => set { s with files := s.files.erase (s.absolute path) }
    | some (.directory _) => told "Directory not empty"
    | some _ => told "Not a directory"
    | none => told "No such file or directory"

/-- Copy or move files. -/
def transfer (name : String) (move : Bool) (args : List String) : Running Unit := do
  let (options, paths) := splitOptions [] args
  let whole_ := move || hasOption options 'r' || hasOption options 'R' || hasOption options 'a'
  finish 0
  let target := paths.getLastD ""
  for path in paths.dropLast do
    let s ← get
    let into := s.files.isDirectory (s.absolute target)
    let whole := if into then target ++ "/" ++ lastName path else target
    match s.resolve path, s.target whole with
    | .error e, _ => grumble (name ++ ": cannot stat '" ++ path ++ "': " ++ reason e) 1
    | .ok source, .ok there =>
      match s.files.entry? source with
      | some (.directory _) =>
        if whole_ then
          let entry := Entry.directory (FileTree.entriesOf (s.files.entry? source))
          let files := if move then s.files.erase source else s.files
          set { s with files := FileTree.put there entry files }
        else grumble (name ++ ": -r not specified; omitting directory '" ++ path ++ "'") 1
      | some entry =>
        let files := if move then s.files.erase source else s.files
        set { s with files := FileTree.put there entry files }
      | none => pure ()
    | .ok _, .error e =>
      grumble (name ++ ": cannot create regular file '" ++ whole ++ "': " ++ reason e) 1

/-- Copy the input to the output and to files. -/
def tee (args : List String) : Running Unit := do
  let (options, paths) := splitOptions [] args
  finish 0
  let data ← takeInput
  put data
  for path in paths do
    let before ← if hasOption options 'a' then readPath path else pure (.ok [])
    match ← writePath path (before.toOption.getD [] ++ data) with
    | .ok _ => pure ()
    | .error e => grumble ("tee: " ++ path ++ ": " ++ reason e) 1

/-! ## Other utilities -/

/-- A duration in microseconds. -/
def duration? (s : String) : Option Nat :=
  let digits := s.toList.takeWhile fun c => c.isDigit || c = '.'
  let unit : Option Nat := match s.toList.drop digits.length with
    | [] | ['s'] => some 1
    | ['m'] => some 60
    | ['h'] => some 3600
    | ['d'] => some 86400
    | _ => none
  let number : Option Nat := match (String.ofList digits).splitOn "." with
    | [whole] => (decimal? whole).map (· * 1000000)
    | [whole, fraction] =>
      let six := ((fraction.toList ++ List.replicate 6 '0').take 6)
      match decimal? (if whole = "" then "0" else whole), decimal? (String.ofList six) with
      | some a, some b => some (a * 1000000 + b)
      | _, _ => none
    | _ => none
  match number, unit with
  | some n, some u => some (n * u)
  | _, _ => none

/-- Wait for the sum of durations. -/
def sleep (args : List String) : Running Unit := do
  match args with
  | [] => grumble "sleep: missing operand\nTry 'sleep --help' for more information." 1
  | _ =>
    match args.find? fun a => (duration? a).isNone with
    | some a =>
      grumble ("sleep: invalid time interval '" ++ a ++
        "'\nTry 'sleep --help' for more information.") 1
    | none => do
      finish 0
      wait (args.foldl (fun n a => n + (duration? a).getD 0) 0)

/-- The last component of a path, without an ending. -/
def basename (args : List String) : Running Unit := do
  let name := lastName (args.headD "")
  let ending := (args.drop 1).headD ""
  let name :=
    if ending ≠ "" && name.endsWith ending && name ≠ ending then
      (name.dropEnd ending.length).toString
    else name
  say (name ++ "\n")
  finish 0

/-- A path without its last component. -/
def dirname (args : List String) : Running Unit := do
  finish 0
  for path in args do
    let before := "/".intercalate (pathComponents path).dropLast
    let start := if path.startsWith "/" then "/" else ""
    let text := start ++ before
    say ((if text = "" then "." else text) ++ "\n")

/-- The value of an expression of two operands. -/
def expr (args : List String) : Running Unit := do
  let number (s : String) : Option Int := (Test.number s).toOption
  let result : Option String := match args with
    | [a] => some a
    | [a, op, b] =>
      match op, number a, number b with
      | "+", some x, some y => some (toString (x + y))
      | "-", some x, some y => some (toString (x - y))
      | "*", some x, some y => some (toString (x * y))
      | "/", some x, some y => if y = 0 then none else some (toString (Int.tdiv x y))
      | "%", some x, some y => if y = 0 then none else some (toString (Int.tmod x y))
      | "=", some x, some y => some (if x = y then "1" else "0")
      | "<", some x, some y => some (if x < y then "1" else "0")
      | ">", some x, some y => some (if y < x then "1" else "0")
      | "=", _, _ => some (if a = b then "1" else "0")
      | _, _, _ => none
    | ["length", a] => some (toString a.length)
    | _ => none
  match result with
  | some r => do
    say (r ++ "\n")
    finish (if r = "" || r = "0" then 1 else 0)
  | none =>
    if args.contains "/" || args.contains "%" then grumble "expr: division by zero" 2
    else if args.isEmpty then
      grumble "expr: missing operand\nTry 'expr --help' for more information." 2
    else grumble "expr: non-integer argument" 2

/-- The paths at or below an entry. -/
def pathsBelow (text : String) (e : Entry) : List (String × Bool) :=
  match e with
  | .directory _ =>
    let below := FileTree.files (FileTree.entriesOf (some e))
    let inside := below.map fun (path, _) => (text ++ "/" ++ "/".intercalate path, false)
    let directories := below.flatMap fun (path, _) =>
      (FileTree.directoriesTo path.dropLast).map fun d => (text ++ "/" ++ "/".intercalate d, true)
    (text, true) :: directories.eraseDups ++ inside
  | _ => [(text, false)]

/-- Find paths by name and kind. -/
def find (args : List String) : Running Unit := do
  let starts := args.takeWhile fun a => !a.startsWith "-"
  let rec value? (name : String) : List String → Option String
    | a :: b :: rest => if a = name then some b else value? name (b :: rest)
    | _ => none
  let s ← get
  finish 0
  for start in if starts.isEmpty then ["."] else starts do
    match s.resolve start with
    | .error e => grumble ("find: '" ++ start ++ "': " ++ reason e) 1
    | .ok there =>
      match (if there.isEmpty then some (.directory s.files) else s.files.entry? there) with
      | none => pure ()
      | some e =>
        for (path, directory) in pathsBelow start e do
          let kind := match value? "-type" args with
            | some "f" => !directory
            | some "d" => directory
            | _ => true
          let named := match value? "-name" args with
            | some glob =>
              Glob.accepts (Glob.ofField (glob.toList.map (·, true))) (lastName path).toList
            | none => true
          if kind && named then say (path ++ "\n")

/-- A line again and again, as often as it may be read. -/
def yes (args : List String) : Running Unit := do
  finish 0
  let line := if args.isEmpty then "y" else " ".intercalate args
  say (String.join (List.replicate 10000 (line ++ "\n")))

/-- The utility of a name. -/
def utility? (name : String) : Option (List String → Running Unit) :=
  match name with
  | "echo" => some echo
  | "printf" => some printf
  | "test" | "[" => some (Test.run name)
  | "true" => some fun _ => finish 0
  | "false" => some fun _ => finish 1
  | "cat" => some cat
  | "head" => some (excerptOf "head" firstParts)
  | "tail" => some (excerptOf "tail" lastParts)
  | "wc" => some wc
  | "grep" => some grep
  | "sed" => some sed
  | "egrep" => some fun args => grep ("-E" :: args)
  | "fgrep" => some fun args => grep ("-F" :: args)
  | "sort" => some sortLines
  | "uniq" => some uniq
  | "tr" => some tr
  | "cut" => some cutLines
  | "seq" => some seq
  | "tac" => some tac
  | "rev" => some rev
  | "ls" => some ls
  | "touch" => some touch
  | "mkdir" => some mkdir
  | "rm" => some rm
  | "rmdir" => some rmdir
  | "cp" => some (transfer "cp" false)
  | "mv" => some (transfer "mv" true)
  | "tee" => some tee
  | "sleep" => some sleep
  | "basename" => some basename
  | "dirname" => some dirname
  | "yes" => some yes
  | "expr" => some expr
  | "find" => some find
  | "sync" => some fun _ => finish 0
  | _ => none

end Distill.Shell
