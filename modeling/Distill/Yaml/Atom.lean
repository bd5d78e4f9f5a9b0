import Distill.Number.Decimal
import Distill.Text.Category
import Distill.Yaml.Cursor

/-!
# What scalars denote

A plain scalar denotes a null, a boolean, an integer, a floating point number or its
own text; a scalar in quotes or blocks denotes its text, unless a tag of the standard
says otherwise.

## Main definitions

* `Yaml.Atom` — what a scalar denotes.
* `Yaml.Atom.ofPlain` — what a plain scalar denotes.
* `Yaml.Finding`, `Yaml.Complaint` — how messages describe what they found, and why a
  value is refused.
* `Yaml.Atom.ofScalar` — what a scalar denotes with its tag and style.
-/

namespace Distill.Yaml

/-- What a scalar denotes. -/
inductive Atom where
  | null
  | bool (b : Bool)
  /-- An integer that fits 64 bits, with or without a sign. -/
  | int (i : Int)
  /-- An integer that fits 128 bits, with or without a sign. -/
  | wideInt (i : Int)
  | real (x : Binary64)
  | text (s : String)
  deriving DecidableEq, Repr, Inhabited

/-! ## Plain scalars -/

/-- Whether a plain scalar is a null. -/
def isNull (s : String) : Bool := s == "~" || s == "null" || s == "Null" || s == "NULL"

/-- The boolean of a plain scalar. -/
def bool? (s : String) : Option Bool :=
  if s = "true" ∨ s = "True" ∨ s = "TRUE" then some true
  else if s = "false" ∨ s = "False" ∨ s = "FALSE" then some false
  else none

/-- The value of a digit in a base up to sixteen. -/
def digitValue? (base : Nat) (c : Char) : Option Nat :=
  let value :=
    if '0' ≤ c ∧ c ≤ '9' then c.toNat - '0'.toNat
    else if 'a' ≤ c ∧ c ≤ 'f' then c.toNat - 'a'.toNat + 10
    else if 'A' ≤ c ∧ c ≤ 'F' then c.toNat - 'A'.toNat + 10
    else base
  if value < base then some value else none

/-- The natural that digits of a base denote; at least one digit. -/
def natural? (base : Nat) (cs : List Char) : Option Nat :=
  if cs.isEmpty then none
  else cs.foldlM (fun n c => (digitValue? base c).map (base * n + ·)) 0

/-- Whether a decimal text has zeros in front, with or without a sign: such a text is
not a number. -/
def hasLeadingZero (cs : List Char) : Bool :=
  let digits := match cs with
    | '+' :: rest | '-' :: rest => rest
    | cs => cs
  1 < digits.length && digits.head? == some '0' && digits.all Char.isDigit

/-- The natural of digits without a sign, which may have the mark of another base in
front. -/
def magnitude? (cs : List Char) : Option Nat :=
  match cs with
  | '0' :: 'x' :: rest => natural? 16 rest
  | '0' :: 'o' :: rest => natural? 8 rest
  | '0' :: 'b' :: rest => natural? 2 rest
  | cs => if hasLeadingZero cs then none else natural? 10 cs

/-- The integer of a plain scalar. -/
def int? (cs : List Char) : Option Int :=
  match cs with
  | '-' :: rest => (magnitude? rest).map fun n => -(n : Int)
  | '+' :: rest => (magnitude? rest).map fun n => (n : Int)
  | cs => (magnitude? cs).map fun n => (n : Int)

/-- The decimal of digits with an optional point and an optional exponent. -/
def decimal? (cs : List Char) : Option Decimal :=
  let whole := cs.takeWhile Char.isDigit
  let rest := cs.dropWhile Char.isDigit
  let (fraction, rest) := match rest with
    | '.' :: rest => (rest.takeWhile Char.isDigit, rest.dropWhile Char.isDigit)
    | rest => ([], rest)
  if whole.isEmpty && fraction.isEmpty then none
  else
    let scaled (e : Int) : Decimal := ⟨digitsValue (whole ++ fraction), e - fraction.length⟩
    match rest with
    | [] => some (scaled 0)
    | c :: rest =>
      if c = 'e' ∨ c = 'E' then
        match rest with
        | '-' :: ds => (natural? 10 ds).map fun e => scaled (-(e : Int))
        | '+' :: ds => (natural? 10 ds).map fun e => scaled e
        | ds => (natural? 10 ds).map fun e => scaled e
      else none

/-- The finite floating point number of a text with an optional sign. -/
def finite? (cs : List Char) : Option Binary64 :=
  let (neg, digits) := match cs with
    | '-' :: rest => (true, rest)
    | '+' :: rest => (false, rest)
    | cs => (false, cs)
  ((decimal? digits).bind (Double.ofDecimal neg)).map .finite

/-- The floating point number of a plain scalar. -/
def real? (s : String) : Option Binary64 :=
  if [".inf", ".Inf", ".INF", "+.inf", "+.Inf", "+.INF"].contains s then some (.infinite false)
  else if ["-.inf", "-.Inf", "-.INF"].contains s then some (.infinite true)
  else if [".nan", ".NaN", ".NAN"].contains s then some .nan
  else finite? s.toList

namespace Atom

/-- What an integer denotes, by its size. -/
def ofInt? (i : Int) : Option Atom :=
  if -(Nat.pow 2 63 : Int) ≤ i ∧ i < Nat.pow 2 64 then some (int i)
  else if -(Nat.pow 2 127 : Int) ≤ i ∧ i < Nat.pow 2 128 then some (wideInt i)
  else none

/-- What a plain scalar denotes. -/
def ofPlain (s : String) : Atom :=
  if s.isEmpty || isNull s then null
  else match bool? s with
    | some b => bool b
    | none =>
      match (int? s.toList).bind ofInt? with
      | some a => a
      | none =>
        if hasLeadingZero s.toList then text s
        else match real? s with
          | some x => real x
          | none => text s

end Atom

/-! ## Complaints -/

/-- How messages describe what they found. -/
inductive Finding where
  | atom (a : Atom)
  | sequence
  | map
  | enum
  deriving DecidableEq, Repr

/-- The text of a number in messages, always with a point. -/
def realText (x : Binary64) : String :=
  match x with
  | .finite y => if y.plainText.contains '.' then y.plainText else y.plainText ++ ".0"
  | x => x.plainText

/-- The wording of a finding. -/
def Finding.message : Finding → String
  | atom .null => "unit value"
  | atom (.bool b) => "boolean \x60" ++ toString b ++ "\x60"
  | atom (.int i) => "integer \x60" ++ toString i ++ "\x60"
  | atom (.wideInt i) =>
    "integer \x60" ++ toString i ++ "\x60 as " ++ (if i < 0 then "i128" else "u128")
  | atom (.real x) => "floating point \x60" ++ realText x ++ "\x60"
  | atom (.text s) => "string " ++ doubleQuoted s
  | sequence => "sequence"
  | map => "map"
  | enum => "enum"

/-- Why a value is refused. -/
inductive Complaint where
  /-- A value of another kind was expected. -/
  | invalidType (found : Finding) (expected : String)
  /-- A value of this kind, but another one, was expected. -/
  | invalidValue (found : Finding) (expected : String)
  /-- The key of a mapping, as it is described, stands twice. -/
  | duplicateKey (description : String)
  | duplicateField (name : String)
  /-- A tag of its own where only plain content can be collected. -/
  | taggedContent
  | numberOutOfRange
  /-- None of the forms of a field fits. -/
  | noVariant (choice : String)
  deriving DecidableEq, Repr

/-- The wording of a complaint. -/
def Complaint.message : Complaint → String
  | invalidType found expected => "invalid type: " ++ found.message ++ ", expected " ++ expected
  | invalidValue found expected => "invalid value: " ++ found.message ++ ", expected " ++ expected
  | duplicateKey description => "duplicate entry " ++ description
  | duplicateField name => "duplicate field \x60" ++ name ++ "\x60"
  | taggedContent => "untagged and internally tagged enums do not support enum input"
  | numberOutOfRange => "JSON number out of range"
  | noVariant choice => "data did not match any variant of untagged enum " ++ choice

/-! ## Tags -/

/-- The tags of the standard that say what a scalar denotes. -/
def coreTag? (tag : String) : Option String :=
  let stem := "tag:yaml.org,2002:"
  ["bool", "int", "float", "null"].find? fun word => tag == stem ++ word

/-- A tag without the exclamation mark in front of it; a mark that stands alone stays. -/
def withoutMark (tag : String) : String :=
  match tag.toList with
  | '!' :: c :: name => String.ofList (c :: name)
  | _ => tag

/-- The name of a tag that the standard does not define: what follows the exclamation
mark, or the mark itself when it stands alone. -/
def localTag? (tag : Option String) : Option String :=
  match tag with
  | some tag => if tag.toList.head? = some '!' then some (withoutMark tag) else none
  | none => none

/-- What a text denotes under a tag of the standard. -/
def Atom.ofTagged (word s : String) : Except Complaint Atom :=
  let refuse (expected : String) : Except Complaint Atom :=
    .error (.invalidValue (.atom (.text s)) expected)
  if word = "bool" then (bool? s).elim (refuse "a boolean") (.ok <| .bool ·)
  else if word = "int" then
    ((int? s.toList).bind Atom.ofInt?).elim (refuse "an integer") .ok
  else if word = "float" then (real? s).elim (refuse "a float") (.ok <| .real ·)
  else if isNull s then .ok .null
  else refuse "null"

/-- What a scalar denotes with its tag and style; a tag of its own that has been taken
off already is not given. -/
def Atom.ofScalar (tag : Option String) (style : Style) (s : String) : Except Complaint Atom :=
  match tag with
  | none => .ok (if style = .plain then Atom.ofPlain s else .text s)
  | some tag =>
    match coreTag? tag with
    | some word => Atom.ofTagged word s
    | none =>
      .ok (if style = .plain && tag.startsWith "!" then Atom.ofPlain s else .text s)

end Distill.Yaml
