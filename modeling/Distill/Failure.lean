import Distill.Json.Decode

/-!
# Failures of steps

Why a node has no artifact. A failure concerns its node only.
-/

namespace Distill

/-- The kinds of failures. -/
inductive FailureKind where
  /-- A command could not be started or did not succeed. -/
  | exec
  /-- The input of a step could not be decoded. -/
  | decode
  /-- A filter could not be applied. -/
  | filter
  /-- Time was up or the run was cancelled. -/
  | cancelled
  deriving DecidableEq, Repr, Inhabited

namespace FailureKind

/-- All kinds. -/
def all : List FailureKind := [exec, decode, filter, cancelled]

/-- The stored name. -/
def name : FailureKind → String
  | exec => "exec_failed"
  | decode => "decode_failed"
  | filter => "filter_failed"
  | cancelled => "cancelled"

/-- How messages name the kind. -/
def display : FailureKind → String
  | exec => "exec failed"
  | decode => "decode failed"
  | filter => "filter failed"
  | cancelled => "cancelled"

/-- The kind of a stored name. -/
def ofName? (s : String) : Option FailureKind := all.find? (·.name == s)

end FailureKind

/-- A failure of a node. -/
structure Failure where
  kind : FailureKind
  message : String
  deriving DecidableEq, Repr, Inhabited

namespace Failure

/-- The kind and the message. -/
def display (f : Failure) : String := f.kind.display ++ ": " ++ f.message

/-- The stored form. -/
def toJson (f : Failure) : Json :=
  .object [("kind", .string f.kind.name), ("message", .string f.message)]

/-- The failure that a value stores. -/
def ofJson? (v : Json) : Option Failure := do
  match ← v.record? ["kind", "message"] with
  | [some kind, some message] => return ⟨← kind.word? FailureKind.ofName?, ← message.string?⟩
  | _ => none

end Failure

end Distill
