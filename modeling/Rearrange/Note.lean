import Rearrange.Parse.Basic
import Rearrange.Tree.Flat

namespace Rearrange

/-- How much a note matters. -/
inductive Level where
  | debug
  | warning
deriving DecidableEq, Repr

/-- What was done or found. -/
inductive Note where
  /-- A text was split into operands. -/
  | split (made : Outline.Split)
  /-- A text without blanks was read as an expression of so many nodes. -/
  | parsed (source : List Char) (size : Nat)
  /-- A text was found to be no expression. -/
  | rejected (text : List Char) (error : ParseError)
  /-- The placements of a node among its siblings were made. -/
  | generated (count : Nat) (child : List Char) (parent : Kind)
  /-- A node was found among its siblings. -/
  | located (text : List Char) (index siblings : Nat)
  /-- A node was moved. -/
  | moved (position : Int) (text : List Char)
  /-- A move of the whole expression was asked for. -/
  | rootPreviewed
  /-- A setting is no truth value. -/
  | notBoolean (setting : String) (given : List Char)
  /-- A setting is no integer. -/
  | notInteger (setting : String) (given : List Char)

/-- The name of a level. -/
def Level.name : Level → String
  | debug => "DEBUG"
  | warning => "WARNING"

namespace Note

/-- The level of a note. -/
def level : Note → Level
  | rootPreviewed | notBoolean .. | notInteger .. => .warning
  | _ => .debug

/-- The part that leaves a note. -/
def origin : Note → String
  | split .. | parsed .. | rejected .. => "expredit.core.parser"
  | generated .. | located .. => "expredit.moves.engine"
  | moved .. | rootPreviewed => "expredit.editor.session"
  | notBoolean .. | notInteger .. => "expredit.config"

/-- The message of a note. -/
def message : Note → String
  | split made =>
    s!"Splitting {Text.quote made.text} into {made.count} " ++
      s!"{(Kind.branch (.chain made.op)).name} operands"
  | parsed source size => s!"Parsed {Text.quote source} into {size} nodes"
  | rejected text error => s!"Rejected {Text.quote text}: {error.message} ({error.name})"
  | generated count child parent =>
    s!"Generated {count} candidates for {String.ofList child} under {parent.name}"
  | located text index siblings =>
    s!"Focused {String.ofList text} at index {index} of {siblings} siblings"
  | moved position text => s!"Moved fragment to position {position}: {String.ofList text}"
  | rootPreviewed => "Preview requested with the root focused; nothing can move"
  | notBoolean setting given => s!"Ignoring {setting}={Text.quote given}: not a boolean"
  | notInteger setting given => s!"Ignoring {setting}={Text.quote given}: not an integer"

end Note

/-- The notes left when a text is read. -/
def parseNotes (text : List Char) : List Note :=
  (parseSplits text).map .split ++
    match parse text with
    | .ok t => [.parsed (Text.squeeze text) t.size]
    | .error _ => []

/-- The notes left when a text is read and a failure is put on record. -/
def attemptNotes (text : List Char) : List Note :=
  parseNotes text ++
    match parse text with
    | .ok _ => []
    | .error e => [.rejected text e]

end Rearrange
