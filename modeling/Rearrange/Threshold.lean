import Rearrange.Note

namespace Rearrange

/-- From which level on notes are shown. -/
inductive Threshold where
  | notSet
  | debug
  | info
  | warning
  | error
  | critical
deriving DecidableEq, Repr

/-- Why a name chooses no threshold. -/
inductive ThresholdError where
  /-- The name stands for a text, which is not the name of a level. -/
  | unknownLevel (text : String)
  /-- The name stands for something that no level could be. -/
  | noLevel
deriving DecidableEq, Repr

namespace Threshold

/-- The name of a threshold. -/
def name : Threshold → String
  | notSet => "NOTSET"
  | debug => "DEBUG"
  | info => "INFO"
  | warning => "WARNING"
  | error => "ERROR"
  | critical => "CRITICAL"

/-- The names that choose a threshold. -/
def named : List (String × Threshold) :=
  [notSet, debug, info, warning, error, critical].map (fun t => (t.name, t)) ++
    [("WARN", warning), ("FATAL", critical)]

/-- The names that are taken by something else. -/
def taken : List (String × ThresholdError) :=
  [("BASIC_FORMAT", .unknownLevel "%(levelname)s:%(name)s:%(message)s"), ("_STYLES", .noLevel)]

/-- The threshold that a name in upper case chooses. -/
def ofName (name : List Char) : Except ThresholdError Threshold :=
  match taken.lookup (String.ofList name) with
  | some e => .error e
  | none => .ok ((named.lookup (String.ofList name)).getD warning)

example : ofName "FATAL".toList = .ok critical := by rfl

example : ofName "LOUD".toList = .ok warning := by rfl

/-- Whether notes of a level are shown. -/
def shows : Threshold → Level → Bool
  | notSet, _ | debug, _ => true
  | info, l | warning, l => l = .warning
  | error, _ | critical, _ => false

end Threshold

end Rearrange
