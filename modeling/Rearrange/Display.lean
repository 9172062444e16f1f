import Rearrange.Markup
import Rearrange.Placement
import Rearrange.Text.Slice

namespace Rearrange.Display

/-- The side on which the cells of a column stand. -/
inductive Justify where
  | left
  | right
deriving DecidableEq, Repr

/-- What happens to a cell that is too wide. -/
inductive Overflow where
  | ellipsis
  | fold
deriving DecidableEq, Repr

/-- The look of a column. -/
structure Column where
  header : String
  style : String := ""
  justify : Justify := .left
  overflow : Overflow := .ellipsis
deriving DecidableEq

/-- A tree of labels. -/
inductive Labels where
  | node (label : List Char) (below : List Labels)

/-- What stands in a panel. -/
inductive Body where
  | text (text : List Char)
  | labels (labels : Labels)

/-- A part of what is shown. -/
inductive Block where
  | line (markup : List Char)
  | panel (body : Body) (title : List Char) (border : String)
  | table (title : List Char) (columns : List Column) (rows : List (List (List Char)))

/-- A number in decimal digits. -/
def digits (n : Int) : List Char :=
  (toString n).toList

/-- The style of a kind of node. -/
def kindStyle : Kind → String
  | .branch (.chain .plus) => "green"
  | .branch (.chain .times) => "yellow"
  | .branch .group => "magenta"
  | .literal => "cyan"

section

variable {α : Type}

/-- The label of a node: its sign, and its flat text unless that is the sign. -/
def label (t : Tree α) : List Char :=
  let sign := Markup.styled (kindStyle t.kind) t.marker
  match t with
  | .literal _ _ => sign
  | .branch _ _ _ => sign ++ ' ' :: Markup.styled "dim" t.flat

mutual
/-- The labels of a tree. -/
def labels : Tree α → Labels
  | .literal a l => .node (label (.literal a l)) []
  | .branch a s cs => .node (label (.branch a s cs)) (labelsAll cs)

/-- The labels of several trees. -/
def labelsAll : List (Tree α) → List Labels
  | [] => []
  | c :: cs => labels c :: labelsAll cs
end

/-- The indented text with four blanks for each tabulator, without the newline at its end. -/
def indentedText (t : Tree α) : List Char :=
  (t.indented 0).dropLast.flatMap fun c => if c = '\t' then [' ', ' ', ' ', ' '] else [c]

/-- Shows an expression, and on request its indented form. -/
def expression (t : Tree α) (indented : Bool) : List Block :=
  .panel (.labels (labels t)) ("Expression: ".toList ++ t.flat) "blue" ::
    if indented then [.panel (.text (indentedText t)) "Indented form".toList "dim"] else []

end

/-- Shows why a text is no expression. -/
def parseError (text : List Char) (e : ParseError) : List Block :=
  [.line (Markup.styled "red" ("Cannot parse ".toList ++ Markup.escape (Text.quoted text) ++
      ':' :: ' ' :: Markup.escape e.message.toList) ++
    ' ' :: Markup.styled "dim" ('(' :: e.name.toList ++ [')']))]

/-- The columns of a table of placements. -/
def candidateColumns : List Column :=
  [{ header := "#", style := "dim", justify := .right },
   { header := "Position", style := "green", justify := .right },
   { header := "Candidate", style := "cyan", overflow := .fold }]

/-- The row of a placement, with a mark at the current one. -/
def candidateRow (current : Option Int) (p : Placement) (index : Nat) : List (List Char) :=
  let mark :=
    if current = some (p.position : Int) then ' ' :: Markup.styled "yellow" "(current)".toList
    else []
  [digits index, digits p.position, p.flat ++ mark]

/-- Shows the placements of a node with the given flat text, up to a bound, and how many are left
out. -/
def candidates (focused : List Char) (ps : List Placement) (limit : Int) (current : Option Int) :
    List Block :=
  .table ("Placements of ".toList ++ focused) candidateColumns
      ((slice ps 0 limit).zipIdx.map fun (p, i) => candidateRow current p i) ::
    if limit < ps.length then
      [.line ("  ... and ".toList ++ digits (ps.length - limit) ++ " more candidates".toList)]
    else []

/-- The columns of a table of results. -/
def resultColumns : List Column :=
  [{ header := "Line", style := "dim", justify := .right },
   { header := "Input", style := "cyan", overflow := .fold },
   { header := "Flat form", overflow := .fold },
   { header := "Status" }]

/-- The result for a line, in the texts that are shown. -/
structure Result where
  line : List Char
  input : List Char
  flat : List Char
  status : List Char

/-- The row of a result. What comes from outside is escaped. -/
def resultRow (r : Result) : List (List Char) :=
  let style := if r.status = "OK".toList then "green" else "red"
  [r.line, Markup.escape r.input, r.flat, Markup.styled style (Markup.escape r.status)]

/-- Shows the results of a check. -/
def results (rs : List Result) : List Block :=
  [.table "Round-trip check".toList resultColumns (rs.map resultRow)]

end Rearrange.Display
