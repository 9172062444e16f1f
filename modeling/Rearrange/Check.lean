import Rearrange.Display
import Rearrange.Text.Lines

namespace Rearrange.Check

/-- What is found of a line. -/
inductive Verdict where
  /-- The line holds an expression with this flat text, which is read as the same expression. -/
  | ok (flat : List Char)
  /-- The line holds an expression with this flat text, which is read as another one or none. -/
  | mismatch (flat : List Char)
  /-- The line holds no expression. -/
  | rejected (error : ParseError)
deriving DecidableEq

/-- A line that was checked, counted from one. -/
structure Row where
  number : Nat
  input : List Char
  verdict : Verdict
deriving DecidableEq

/-- What is found of a text. -/
def verdict (text : List Char) : Verdict :=
  match parse text with
  | .error e => .rejected e
  | .ok t =>
    match parse t.flat with
    | .ok again => if again = t then .ok t.flat else .mismatch t.flat
    | .error _ => .mismatch t.flat

/-- The notes left when a text is checked. -/
def notes (text : List Char) : List Note :=
  attemptNotes text ++
    match parse text with
    | .ok t => attemptNotes t.flat
    | .error _ => []

/-- Whether a line without blanks at its ends is passed over. -/
def isSkipped (line : List Char) : Bool :=
  line.isEmpty || line.head? == some '#'

/-- The lines to be checked, without the blanks at their ends, with their numbers. -/
def numbered (lines : List (List Char)) : List (Nat × List Char) :=
  (lines.zipIdx 1).filterMap fun (line, number) =>
    let input := Text.strip line
    if isSkipped input then none else some (number, input)

/-- The rows for the lines of a file. -/
def rows (lines : List (List Char)) : List Row :=
  (numbered lines).map fun (number, input) => ⟨number, input, verdict input⟩

namespace Row

/-- Whether the line passes the check. -/
def passes (r : Row) : Bool :=
  match r.verdict with
  | .ok _ => true
  | _ => false

/-- The row in the texts that are shown. -/
def result (r : Row) : Display.Result :=
  let (flat, status) := match r.verdict with
    | .ok flat => (flat, "OK")
    | .mismatch flat => (flat, "MISMATCH")
    | .rejected e => ([], e.name)
  ⟨Display.digits r.number, r.input, flat, status.toList⟩

end Row

/-- How many rows pass. -/
def passed (rs : List Row) : Nat :=
  rs.countP (·.passes)

/-- Shows the rows and how many of them pass. -/
def blocks (rs : List Row) : List Display.Block :=
  Display.results (rs.map (·.result)) ++
    [.line ('\n' :: Markup.styled "bold" (Display.digits (passed rs) ++
      '/' :: Display.digits rs.length ++ " expressions passed".toList))]

end Rearrange.Check
