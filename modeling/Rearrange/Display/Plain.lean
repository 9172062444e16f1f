import Rearrange.Display

namespace Rearrange.Display

mutual
/-- The lines of a tree of labels that stands at the given depth. -/
def Labels.lines (depth : Nat) : Labels → List (List Char)
  | .node label below =>
    (List.replicate (2 * depth) ' ' ++ Markup.plain label) :: labelLines (depth + 1) below

/-- The lines of several trees of labels. -/
def labelLines (depth : Nat) : List Labels → List (List Char)
  | [] => []
  | l :: ls => l.lines depth ++ labelLines depth ls
end

/-- The line of the cells of a row. -/
def rowLine (cells : List (List Char)) : List Char :=
  [' ', '|', ' '].intercalate (cells.map Markup.plain)

/-- The lines of what stands in a panel. -/
def Body.lines : Body → List (List Char)
  | text t => [Markup.plain t]
  | labels l => l.lines 0

/-- The lines of a block. -/
def Block.lines : Block → List (List Char)
  | line markup => [Markup.plain markup]
  | panel body title _ => Markup.plain title :: body.lines
  | table title columns rows =>
    Markup.plain title :: rowLine (columns.map (·.header.toList)) :: rows.map rowLine

end Rearrange.Display
