import Rearrange.Check
import Rearrange.CommandLine.FrontEnd
import Rearrange.Datum.Json
import Rearrange.Settings

namespace Rearrange.CommandLine

/-- How a request ends. -/
structure Ending where
  exit : Nat := 0
  fault : Option Fault := none
  output : List Char := []
  blocks : List Display.Block := []
  notes : List Note := []

namespace Ending

/-- The ending after more notes. -/
def withNotes (e : Ending) (notes : List Note) : Ending :=
  { e with notes := notes ++ e.notes }

/-- An ending that shows one line. -/
def line (exit : Nat) (style : String) (text : String) (notes : List Note := []) : Ending :=
  { exit, blocks := [.line (Markup.styled style text.toList)], notes }

/-- An ending by a fault. -/
def broken (fault : Fault) (notes : List Note := []) : Ending :=
  { exit := 1, fault := some fault, notes }

end Ending

/-- Reads an expression and goes on with it, or shows why the text is none. -/
def withExpression (text : List Char) (go : Expr → Ending) : Ending :=
  let ending : Ending := match parse text with
    | .error e => { exit := 1, blocks := Display.parseError text e }
    | .ok t => go t
  ending.withNotes (attemptNotes text)

/-- Shows an expression, or writes it as data. -/
def showExpression (json indented : Bool) (t : Expr) : Ending :=
  if json then { output := (t.toDatum.pretty 0).toList ++ ['\n'] }
  else { blocks := Display.expression t indented }

/-- Shows the placements of a node among its siblings. -/
def showCandidates (settings : Settings) (focus : List Int) (t : Expr) : Ending :=
  let s := Session.ofExpr t settings.reparse
  match s.selectPath focus with
  | { result := .error e, .. } => .line 2 "red" s!"Bad focus path: {e.message}"
  | { result := .ok focused, session := s, .. } =>
    match s.candidates with
    | { result := .error e, notes, .. } => .broken (.session e) notes
    | { result := .ok [], notes, .. } =>
      .line 0 "yellow" "The root expression has no siblings to move among." notes
    | { result := .ok cs, session := s, notes } =>
      match s.store.indexInParent focused with
      | .error e => .broken (.session (.lookup e)) notes
      | .ok index =>
        { blocks := Display.candidates (s.store.expr focused).flat (cs.map s.store.shown)
            settings.maxPreview (some (index : Int))
          notes }

/-- Writes the text of the expression that a session commits. -/
def commit (s : Session) : Ending :=
  match s.commit with
  | { result := .error e, notes, .. } => .broken (.session e) notes
  | { result := .ok text, notes, .. } => { output := text ++ ['\n'], notes }

/-- What is shown when a node cannot be moved. -/
def cannotMove (e : SessionError) (notes : List Note) : Ending :=
  match e with
  | .lookup e => .line 2 "red" s!"Cannot move: {e.message}" notes
  | e => .broken (.session e) notes

/-- Moves a node among its siblings and writes the text of the expression. -/
def moveNode (settings : Settings) (focus : List Int) (position : Int) (t : Expr) : Ending :=
  match (Session.ofExpr t settings.reparse).selectPath focus with
  | { result := .error e, notes, .. } => cannotMove e notes
  | { result := .ok _, session := s, .. } =>
    match s.moveTo position with
    | { result := .error e, notes, .. } => cannotMove e notes
    | { result := .ok _, session := s, notes } => (commit s).withNotes notes

/-- Checks the lines of a file. -/
def checkFile (content : ByteArray) : Ending :=
  match Text.fileLines? content with
  | none => .broken .notText
  | some lines =>
    let rows := Check.rows lines
    { exit := if rows.all (·.passes) then 0 else 1
      blocks := Check.blocks rows
      notes := (Check.numbered lines).flatMap fun (_, input) => Check.notes input }

/-- Carries out a request. -/
def Request.perform (settings : Settings) (files : Files) : Request → Ending
  | parse text json indented =>
    withExpression text (showExpression json (indented.getD settings.showIndented))
  | candidates text focus => withExpression text (showCandidates settings focus)
  | move text focus position => withExpression text (moveNode settings focus position)
  | check path =>
    match files path with
    | .file content => checkFile content
    | .absent | .directory => .broken .noFile
  | help page => { output := page }

/-- What comes of a run: its exit status, why it failed, what it writes and shows, the threshold
in force at the end, and the lines left by notes. -/
structure Report (ε : Type) where
  exit : Nat := 0
  failure : Option (Failure ε) := none
  output : List Char := []
  blocks : List Display.Block := []
  threshold : Threshold := .warning
  trace : List String := []

/-- The line that a note leaves. -/
def traceLine (n : Note) : String :=
  s!"[{n.level.name}] {n.origin}: {n.message}"

/-- Runs a command line that a front end takes apart. Notes on the settings are left before the
threshold is known: as bare messages, whatever it is going to be. -/
def run {ε : Type} (front : FrontEnd ε) (env : Environment) (files : Files)
    (args : List (List Char)) : Report ε :=
  match front.invocation args with
  | .error e => { exit := front.status e, failure := some (.usage e) }
  | .ok (.help page) => { output := page }
  | .ok (.command chosen command args) =>
    let (settings, notes) := Settings.ofEnvironment env
    let trace := notes.map (·.message)
    let level := if chosen = [] then settings.logLevel else chosen
    match Threshold.ofName (Text.upper level) with
    | .error e => { exit := 1, failure := some (.fault (.threshold e)), trace }
    | .ok threshold =>
      match front.request front.readFocus files command args with
      | .error f => { exit := front.exit f, failure := some f, threshold, trace }
      | .ok request =>
        let ending := request.perform settings files
        let shown := ending.notes.filter fun n => threshold.shows n.level
        { exit := ending.exit
          failure := ending.fault.map .fault
          output := ending.output
          blocks := ending.blocks
          threshold
          trace := trace ++ shown.map traceLine }

end Rearrange.CommandLine
