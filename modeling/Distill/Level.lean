import Distill.Text.Basic

/-!
# Levels

How severe the finding of an analysis is.
-/

namespace Distill

/-- The severity of a conclusion. -/
inductive Level where
  | critical | error | warning | info | debug
  deriving DecidableEq, Repr, Inhabited

namespace Level

/-- All levels, the most severe first. -/
def all : List Level := [critical, error, warning, info, debug]

/-- The name of a level. -/
def name : Level → String
  | critical => "critical"
  | error => "error"
  | warning => "warning"
  | info => "info"
  | debug => "debug"

/-- The place of a level, zero for the most severe. -/
def rank : Level → Nat
  | critical => 0
  | error => 1
  | warning => 2
  | info => 3
  | debug => 4

/-- The level of a name as it is stored. -/
def ofName? (s : String) : Option Level := all.find? (·.name == s)

/-- The level of a name as it is written in definitions, in any case and with white space
around it. -/
def parse? (s : String) : Option Level := ofName? ((trimBlank s).map Char.toLower)

/-- The message for a name of no level. -/
def unknownMessage (s : String) : String := "invalid level: " ++ quoted s

end Level

end Distill
