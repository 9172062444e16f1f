import Rearrange.Session.Basic
import Rearrange.Text.Numeral
import Rearrange.Text.Quoted
import Rearrange.Threshold

namespace Rearrange.CommandLine

/-- The commands there are. -/
inductive CommandName where
  | parse
  | candidates
  | move
  | check
deriving DecidableEq, Repr

/-- What is found under the name of a file. -/
inductive FileState where
  | absent
  | directory
  | file (content : ByteArray)

/-- Where a name leads. -/
abbrev Files := List Char → FileState

/-- Why a run breaks off, other than for a wrong command line. -/
inductive Fault where
  /-- The threshold for notes cannot be used. -/
  | threshold (error : ThresholdError)
  /-- The name of a file holds a zero character. -/
  | zeroInPath
  /-- There is no file to be read under a name. -/
  | noFile
  /-- A file is no UTF-8. -/
  | notText
  /-- An operation of a session fails that should not. -/
  | session (error : SessionError)

/-- The message of a fault, if it has one of its own. -/
def Fault.message? : Fault → Option String
  | threshold (.unknownLevel text) => some s!"Unknown level: {Text.quote text.toList}"
  | threshold .noLevel | noFile | notText => none
  | zeroInPath => some "embedded null byte"
  | session e => some e.message

/-- What the program is asked to do. -/
inductive Request where
  | parse (text : List Char) (json : Bool) (indented : Option Bool)
  | candidates (text : List Char) (focus : List Int)
  | move (text : List Char) (focus : List Int) (position : Int)
  | check (path : List Char)
  /-- A page of help. -/
  | help (page : List Char)

/-- What a command line calls for. -/
inductive Invocation where
  /-- A page of help on the program. -/
  | help (page : List Char)
  /-- A command with its arguments, and the name chosen for the threshold, which is empty if none
  is. -/
  | command (level : List Char) (name : CommandName) (args : List (List Char))

/-- Why a run fails, where `ε` says what can be wrong with a command line. -/
inductive Failure (ε : Type) where
  | usage (error : ε)
  | fault (fault : Fault)

/-- What takes command lines apart and says what is wrong with them. -/
structure FrontEnd (ε : Type) where
  /-- Finds the command of a command line. -/
  invocation : List (List Char) → Except ε Invocation
  /-- Finds the request in the arguments of a command. A focus is read by what is handed over for
  it; a front end decides when. -/
  request : (List Char → Except ε (List Int)) → Files → CommandName → List (List Char) →
    Except (Failure ε) Request
  /-- What is wrong with a command line if the value of an option is refused for a reason. -/
  badParameter : String → ε
  /-- The exit status for a wrong command line. -/
  status : ε → Nat

/-- The child indices that a text without blanks at its ends gives, separated by points. The empty
text leads to the root. -/
def focusPath? (text : List Char) : Option (List Int) :=
  if text = [] then some [] else (text.splitOn '.').mapM Text.integer?

example : focusPath? "3.0".toList = some [3, 0] := by decide +kernel

example : focusPath? "1.".toList = none := by decide +kernel

namespace FrontEnd

variable {ε : Type}

/-- Reads the path to the node in focus. -/
def readFocus (front : FrontEnd ε) (given : List Char) : Except ε (List Int) :=
  let text := Text.strip given
  match focusPath? text with
  | some path => .ok path
  | none =>
    .error (front.badParameter s!"expected dotted child indices like 3.0, got {Text.quote text}")

/-- The exit status of a failure. -/
def exit (front : FrontEnd ε) : Failure ε → Nat
  | .usage e => front.status e
  | .fault _ => 1

/-- The names of files that a command line may ask for. -/
def pathsIn (front : FrontEnd ε) (args : List (List Char)) : List (List Char) :=
  match front.invocation args with
  | .ok (.command _ .check paths) => paths
  | _ => []

end FrontEnd

end Rearrange.CommandLine
