import Distill.Artifact.Value

/-!
# Files of artifacts

A file of an artifact starts with a line that names the node and tells what follows:
the value of a success in its encoding, or nothing behind a failure.

## Main definitions

* `Cache.Marker` — the first line.
* `Cache.encode`, `Cache.decode` — the octets of an artifact, and back.
-/

namespace Distill.Cache

/-- What is wrong with an entry. -/
inductive Corruption where
  /-- There is no first line. -/
  | missingMarker
  /-- The first line or the value cannot be read. -/
  | malformed
  /-- The first line names another node. -/
  | otherNode (name : String)
  /-- A success without a value is to be stored. -/
  | missingValue
  deriving DecidableEq, Repr

/-- The wording of what is wrong. -/
def Corruption.message : Corruption → String
  | missingMarker => "missing marker line"
  | malformed => "invalid JSON"
  | otherNode name => "marker names node '" ++ name ++ "'"
  | missingValue => "successful artifact without a value"

/-- The first line of a file. -/
inductive Marker where
  | succeeded (node : String) (encoding : Encoding)
  | failed (node : String) (failure : Failure)
  deriving DecidableEq, Repr

namespace Marker

/-- The value that stores a marker. -/
def toJson : Marker → Json
  | succeeded node encoding =>
    .object [("status", .string "succeeded"), ("node", .string node),
      ("encoding", .string encoding.name)]
  | failed node failure =>
    .object [("status", .string "failed"), ("node", .string node), ("error", failure.toJson)]

/-- The marker of a status with the other fields. -/
def ofFields? (status : Json) (fields : Json) : Option Marker := do
  match ← status.string? with
  | "succeeded" =>
    match ← fields.record? ["node", "encoding"] with
    | [some node, some encoding] =>
      return succeeded (← node.string?) (← encoding.word? Encoding.ofName?)
    | _ => none
  | "failed" =>
    match ← fields.record? ["node", "error"] with
    | [some node, some failure] => return failed (← node.string?) (← Failure.ofJson? failure)
    | _ => none
  | _ => none

/-- The marker that a value stores. -/
def ofJson? : Json → Option Marker
  | .object fields => do
    let status ← (← Json.uniqueField? "status" fields)
    ofFields? status (.object (fields.filter (·.1 != "status")))
  | .array (status :: rest) => ofFields? status (.array rest)
  | _ => none

end Marker

/-- The octet that ends the first line. -/
def newline : UInt8 := 10

/-- The octets of a file with a marker. -/
def withMarker (m : Marker) (payload : Bytes) : Bytes :=
  Bytes.ofString m.toJson.text ++ newline :: payload

/-- The octets of an artifact. A success must have a value; that of a failure is left out. -/
def encode (a : Artifact) : Except Corruption Bytes :=
  match a.status, a.value with
  | .succeeded, some v => .ok (withMarker (.succeeded a.node v.encoding) v.payload)
  | .succeeded, none => .error .missingValue
  | .failed f, _ => .ok (withMarker (.failed a.node f) [])

/-- The marker of a file and the octets behind it. -/
def readMarker (data : Bytes) : Except Corruption (Marker × Bytes) :=
  match data.dropWhile (· != newline) with
  | [] => .error .missingMarker
  | _ :: payload =>
    match (Json.parseRawBytes? (data.takeWhile (· != newline))).bind Marker.ofJson? with
    | some m => .ok (m, payload)
    | none => .error .malformed

/-- The artifact of a file. -/
def decode (data : Bytes) : Except Corruption Artifact := do
  match ← readMarker data with
  | (.succeeded node encoding, payload) =>
    match ArtifactValue.ofPayload? encoding payload with
    | some v => return .succeeded node v
    | none => throw .malformed
  | (.failed node f, _) => return .failed node f

end Distill.Cache
