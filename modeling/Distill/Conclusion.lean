import Distill.Json.Decode
import Distill.Level

/-!
# Conclusions

What an analysis found in an archive, with links back into its files.

## Main definitions

* `Location`, `Detail`, `Conclusion` — a place in a file, a result with the places it
  refers to, and the outcome of an analysis.
* `Conclusion.toJson`, `Conclusion.ofJson?` — the stored form. Fields are written in
  the order of declaration.
* `LevelCounts` — how many abnormal conclusions there are at each level.
-/

namespace Distill

/-- A place in a file of an archive with the text found there. -/
structure Location where
  path : String
  firstLine : Option Nat
  lastLine : Option Nat
  /-- Octets before the text. -/
  offset : Option Nat
  length : Option Nat
  text : String
  deriving DecidableEq, Repr, Inhabited

/-- A result as a template with the places bound to its placeholders. -/
structure Detail where
  description : String
  fields : List (String × Location)
  deriving DecidableEq, Repr, Inhabited

/-- The outcome of an analysis. -/
structure Conclusion where
  name : String
  level : Level
  summary : String
  description : String
  results : List String
  details : List Detail
  /-- There are findings. -/
  abnormal : Bool
  /-- There are no findings. -/
  normal : Bool
  /-- It is not known whether there are findings. -/
  unknown : Bool
  /-- Seconds spent. -/
  duration : Double
  deriving DecidableEq, Repr, Inhabited

/-! ## The stored form -/

namespace Location

/-- A field that is left out when there is nothing to write. -/
def optionalField (name : String) (n : Option Nat) : List (String × Json) :=
  (n.map fun n => (name, Json.ofNat n)).toList

/-- The stored form. -/
def toJson (l : Location) : Json :=
  .object (("path", .string l.path) :: optionalField "first_line" l.firstLine
    ++ optionalField "last_line" l.lastLine ++ optionalField "offset" l.offset
    ++ optionalField "length" l.length ++ [("text", .string l.text)])

/-- The location that a value stores. -/
def ofJson? (v : Json) : Option Location := do
  match ← v.record? ["path", "first_line", "last_line", "offset", "length", "text"] with
  | [some path, first, last, offset, length, text] =>
    return {
      path := ← path.string?
      firstLine := ← Json.optional? Json.nat64? first
      lastLine := ← Json.optional? Json.nat64? last
      offset := ← Json.optional? Json.nat64? offset
      length := ← Json.optional? Json.nat64? length
      text := ← Json.orElse? Json.string? "" text }
  | _ => none

end Location

namespace Detail

/-- The stored form. -/
def toJson (d : Detail) : Json :=
  .object [("description", .string d.description),
    ("fields", .object (d.fields.map fun f => (f.1, f.2.toJson)))]

/-- The detail that a value stores. -/
def ofJson? (v : Json) : Option Detail := do
  match ← v.record? ["description", "fields"] with
  | [some description, some (.object fields)] =>
    let fields ← fields.mapM fun f => (Location.ofJson? f.2).map (f.1, ·)
    return ⟨← description.string?, sortKeys fields⟩
  | _ => none

end Detail

namespace Conclusion

/-- The conclusion of an analysis that could not be evaluated. -/
def unevaluated (name : String) (level : Level) (summary description : String) : Conclusion :=
  { name, level, summary, description, results := [], details := [], abnormal := false,
    normal := false, unknown := true, duration := Double.zero false }

/-- The stored form. -/
def toJson (c : Conclusion) : Json :=
  .object [("name", .string c.name), ("level", .string c.level.name),
    ("summary", .string c.summary), ("description", .string c.description),
    ("results", .array (c.results.map .string)), ("details", .array (c.details.map Detail.toJson)),
    ("abnormal", .bool c.abnormal), ("normal", .bool c.normal), ("unknown", .bool c.unknown),
    ("duration", .number (.real c.duration))]

/-- The names of the fields in their order. -/
def fieldNames : List String :=
  ["name", "level", "summary", "description", "results", "details", "abnormal", "normal",
   "unknown", "duration"]

/-- The conclusion that a value stores. -/
def ofJson? (v : Json) : Option Conclusion := do
  match ← v.record? fieldNames with
  | [some name, some level, some summary, some description, results, details, some abnormal,
      some normal, some unknown, duration] =>
    return {
      name := ← name.string?
      level := ← level.word? Level.ofName?
      summary := ← summary.string?
      description := ← description.string?
      results := ← Json.orElse? (Json.list? Json.string?) [] results
      details := ← Json.orElse? (Json.list? Detail.ofJson?) [] details
      abnormal := ← abnormal.bool?
      normal := ← normal.bool?
      unknown := ← unknown.bool?
      duration := ← Json.orElse? Json.double? (Double.zero false) duration }
  | _ => none

/-- Equality, with durations compared as numbers. -/
def same (c d : Conclusion) : Bool :=
  c.duration.key == d.duration.key && decide ({ c with duration := d.duration } = d)

end Conclusion

/-! ## Counts -/

/-- How many abnormal conclusions there are at each level. -/
structure LevelCounts where
  critical : Nat := 0
  error : Nat := 0
  warning : Nat := 0
  info : Nat := 0
  debug : Nat := 0
  deriving DecidableEq, Repr, Inhabited

namespace LevelCounts

/-- The number at a level. -/
def get (c : LevelCounts) : Level → Nat
  | .critical => c.critical
  | .error => c.error
  | .warning => c.warning
  | .info => c.info
  | .debug => c.debug

/-- One more at a level. -/
def increment (c : LevelCounts) : Level → LevelCounts
  | .critical => { c with critical := c.critical + 1 }
  | .error => { c with error := c.error + 1 }
  | .warning => { c with warning := c.warning + 1 }
  | .info => { c with info := c.info + 1 }
  | .debug => { c with debug := c.debug + 1 }

/-- The numbers of abnormal conclusions; normal and unknown ones are not counted. -/
def ofConclusions (cs : List Conclusion) : LevelCounts :=
  (cs.filter (·.abnormal)).foldl (fun c d => c.increment d.level) {}

/-- The number at all levels together. -/
def total (c : LevelCounts) : Nat := c.critical + c.error + c.warning + c.info + c.debug

end LevelCounts

/-- What a list of archives shows of one of them. -/
structure ArchiveSummary where
  archive : String
  /-- A full run has ended and its conclusions are stored. -/
  analysed : Bool
  conclusions : LevelCounts
  deriving DecidableEq, Repr, Inhabited

end Distill
