import Rearrange.Parse.Outline
import Rearrange.Text.Blank
import Rearrange.Tree.Flatten

namespace Rearrange

/-- Reads a text without blanks. Different numbers of opening and closing parentheses are reported
before anything else is looked at. -/
def parseSource (source : List Char) : Except ParseError Expr :=
  if source = [] then .error .emptyFragment
  else if Scan.isBalanced source then (Outline.ofText source).result.map Tree.flatten
  else .error (.unbalanced source)

/-- Reads a text as an expression. Its parts may be nested to any depth. -/
def parse (text : List Char) : Except ParseError Expr :=
  parseSource (Text.squeeze text)

/-- The splits met while a text is read. -/
def parseSplits (text : List Char) : List Outline.Split :=
  let source := Text.squeeze text
  if source ≠ [] ∧ Scan.isBalanced source then (Outline.ofText source).splits else []

end Rearrange
