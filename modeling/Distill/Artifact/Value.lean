import Distill.Conclusion
import Distill.Failure
import Distill.Json.Printer

/-!
# Artifacts

What the nodes of a definition produce for an archive.

## Main definitions

* `ArtifactValue` — octets, one document, a sequence of documents, or a conclusion.
* `ArtifactValue.text`, `ArtifactValue.isEmpty` — how steps read a value, and whether it
  holds no findings.
* `ArtifactValue.payload`, `ArtifactValue.ofPayload?` — the stored form of a value.
* `Artifact` — the output of a node: a value or a failure.
-/

namespace Distill

/-- The output of a node. -/
inductive ArtifactValue where
  /-- Raw output of a command. -/
  | bytes (b : Bytes)
  | document (v : Json)
  | sequence (items : List Json)
  | conclusion (c : Conclusion)
  deriving Repr, Inhabited

/-- How a value is stored. -/
inductive Encoding where
  | bytes | document | sequence | conclusion
  deriving DecidableEq, Repr, Inhabited

namespace Encoding

/-- All encodings. -/
def all : List Encoding := [bytes, document, sequence, conclusion]

/-- The stored name. -/
def name : Encoding → String
  | bytes => "bytes"
  | document => "document"
  | sequence => "sequence"
  | conclusion => "conclusion"

/-- The encoding of a stored name. -/
def ofName? (s : String) : Option Encoding := all.find? (·.name == s)

end Encoding

/-- The white space of ASCII without the vertical tab. -/
def isByteBlank (b : UInt8) : Bool :=
  b == 0x20 || b == 0x09 || b == 0x0A || b == 0x0C || b == 0x0D

/-- Whether a document holds nothing: null, a blank string, an empty array or object. -/
def Json.isEmpty : Json → Bool
  | null => true
  | string s => s.toList.all isBlank
  | array items => items.isEmpty
  | object fields => fields.isEmpty
  | bool _ | number _ => false

namespace ArtifactValue

/-- How the value is stored. -/
def encoding : ArtifactValue → Encoding
  | bytes _ => .bytes
  | document _ => .document
  | sequence _ => .sequence
  | conclusion _ => .conclusion

/-- Whether the value holds no findings. -/
def isEmpty : ArtifactValue → Bool
  | bytes b => b.all isByteBlank
  | document v => v.isEmpty
  | sequence items => items.isEmpty
  | conclusion c => !c.abnormal

/-- The value as a text; the elements of a sequence and the results of a conclusion are
lines. -/
def text : ArtifactValue → String
  | bytes b => b.lossyText
  | document v => v.plain
  | sequence items => "\n".intercalate (items.map Json.plain)
  | conclusion c => "\n".intercalate c.results

/-- The stored form of the value. -/
def payload : ArtifactValue → Bytes
  | bytes b => b
  | document v => Bytes.ofString v.text
  | sequence items => Bytes.ofString (Json.array items).text
  | conclusion c => Bytes.ofString c.toJson.text

/-- The value of an encoding that octets store. -/
def ofPayload? : Encoding → Bytes → Option ArtifactValue
  | .bytes, b => some (bytes b)
  | .document, b => (Json.parseBytes? b).map document
  | .sequence, b =>
    match Json.parseBytes? b with
    | some (.array items) => some (sequence items)
    | _ => none
  | .conclusion, b => ((Json.parseRawBytes? b).bind Conclusion.ofJson?).map conclusion

/-- Equality, with doubles compared as numbers. -/
def same : ArtifactValue → ArtifactValue → Bool
  | bytes a, bytes b => a == b
  | document v, document w => v.same w
  | sequence vs, sequence ws => Json.sameItems vs ws
  | conclusion c, conclusion d => c.same d
  | _, _ => false

end ArtifactValue

/-- Whether a node succeeded. -/
inductive ArtifactStatus where
  | succeeded
  /-- The node was tried in vain. -/
  | failed (failure : Failure)
  deriving Repr, Inhabited

/-- The output of a node. A value is meant to be there just if the node succeeded; an artifact
that has none, or one behind a failure, can be described all the same. -/
structure Artifact where
  node : String
  status : ArtifactStatus
  value : Option ArtifactValue
  deriving Repr, Inhabited

namespace Artifact

/-- The artifact of a node that succeeded. -/
def succeeded (node : String) (v : ArtifactValue) : Artifact := ⟨node, .succeeded, some v⟩

/-- The artifact of a node that failed. -/
def failed (node : String) (f : Failure) : Artifact := ⟨node, .failed f, none⟩

/-- Whether the node succeeded. -/
def isSuccess (a : Artifact) : Bool :=
  match a.status with
  | .succeeded => true
  | .failed _ => false

/-- The value of a success. -/
def value? (a : Artifact) : Option ArtifactValue :=
  match a.status with
  | .succeeded => a.value
  | .failed _ => none

/-- Why the node failed. -/
def failure? (a : Artifact) : Option Failure :=
  match a.status with
  | .succeeded => none
  | .failed f => some f

@[simp] theorem node_succeeded (node : String) (v : ArtifactValue) :
    (succeeded node v).node = node := rfl

@[simp] theorem value?_succeeded (node : String) (v : ArtifactValue) :
    (succeeded node v).value? = some v := rfl

@[simp] theorem node_failed (node : String) (f : Failure) : (failed node f).node = node := rfl

@[simp] theorem value?_failed (node : String) (f : Failure) : (failed node f).value? = none := rfl

end Artifact

end Distill
