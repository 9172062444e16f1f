import Rearrange.Text.Quoted

namespace Rearrange

/-- A defect of a text that is read as an expression. -/
inductive ParseError where
  /-- The whole text holds different numbers of opening and closing parentheses. -/
  | unbalanced (source : List Char)
  /-- A pair of parentheses has nothing between them. -/
  | emptyGroup
  /-- An operand is missing, or the whole text is blank. -/
  | emptyFragment
  /-- An operand without operators of its own is no literal. -/
  | invalidLiteral (text : List Char)
deriving DecidableEq, Repr

namespace ParseError

/-- The name of the kind of defect. -/
def name : ParseError → String
  | unbalanced _ => "UNBALANCED_PARENTHESES"
  | emptyGroup => "EMPTY_GROUP"
  | emptyFragment => "EMPTY_FRAGMENT"
  | invalidLiteral _ => "INVALID_LITERAL"

/-- The message shown for a defect. -/
def message : ParseError → String
  | unbalanced source => "unbalanced parentheses in " ++ Text.quote source
  | emptyGroup => "empty parenthesis group"
  | emptyFragment => "empty fragment"
  | invalidLiteral text => "invalid literal \"" ++ String.ofList text ++ "\""

end ParseError

end Rearrange
