import Rearrange.Note
import Rearrange.Text.LetterCase
import Rearrange.Text.Numeral

namespace Rearrange

/-- The texts of the variables. A variable that is not set is empty. -/
abbrev Environment := String → List Char

/-- What a user can set. -/
structure Settings where
  /-- The name of the level from which on notes are shown. -/
  logLevel : List Char := "WARNING".toList
  /-- Whether a text is read again before it is committed. -/
  reparse : Bool := true
  /-- Whether an expression is also shown in its indented form. -/
  showIndented : Bool := false
  /-- How many placements are shown. -/
  maxPreview : Nat := 20

namespace Settings

/-- The words that mean yes. -/
def trueWords : List String := ["1", "true", "t", "yes", "y", "on"]

/-- The words that mean no. -/
def falseWords : List String := ["0", "false", "f", "no", "n", "off"]

/-- The truth value that a word in lower case means. -/
def truthValue? (word : List Char) : Option Bool :=
  if String.ofList word ∈ trueWords then some true
  else if String.ofList word ∈ falseWords then some false
  else none

example : truthValue? "off".toList = some false := by decide +kernel

example : truthValue? ['2'] = none := by decide +kernel

/-- The truth value of a variable, and the notes left when it is read. -/
def readBool (env : Environment) (name : String) (default : Bool) : Bool × List Note :=
  let given := Text.lower (Text.strip (env name))
  match truthValue? given with
  | some b => (b, [])
  | none => (default, if given = [] then [] else [.notBoolean name given])

/-- The integer of a variable, and the notes left when it is read. -/
def readInt (env : Environment) (name : String) (default : Int) : Int × List Note :=
  let given := Text.strip (env name)
  if given = [] then (default, [])
  else
    match Text.integer? given with
    | some n => (n, [])
    | none => (default, [.notInteger name given])

/-- The level that a variable names, in upper case. -/
def readLevel (env : Environment) (name : String) (default : List Char) : List Char :=
  let given := Text.upper (Text.strip (env name))
  if given = [] then default else given

/-- The settings that an environment holds, and the notes left when they are read. At least one
placement is shown, whatever is asked for. -/
def ofEnvironment (env : Environment) : Settings × List Note :=
  let default : Settings := {}
  let (reparse, reparseNotes) := readBool env "EXPREDIT_REPARSE_ON_COMMIT" default.reparse
  let (showIndented, indentedNotes) := readBool env "EXPREDIT_SHOW_INDENTED" default.showIndented
  let (maxPreview, previewNotes) := readInt env "EXPREDIT_MAX_PREVIEW" default.maxPreview
  ({ logLevel := readLevel env "EXPREDIT_LOG_LEVEL" default.logLevel
     reparse
     showIndented
     maxPreview := max 1 maxPreview.toNat },
   reparseNotes ++ indentedNotes ++ previewNotes)

end Settings

end Rearrange
