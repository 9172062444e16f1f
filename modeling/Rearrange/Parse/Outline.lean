import Rearrange.Parse.Error
import Rearrange.Parse.Scan

namespace Rearrange

/-- How a text starts, as far as the parenthesis at its start is concerned. -/
inductive Lead where
  /-- There is none, or its group ends before the text does. -/
  | plain
  /-- It is closed at once. -/
  | hollow
  /-- It is closed by the last character; the text between them is given. -/
  | enclosing (inner : List Char)

/-- How a text starts. -/
def Scan.lead (text : List Char) : Lead :=
  if text.head? = some '(' then
    match matchingClose text with
    | some 1 => .hollow
    | some close => if close + 1 = text.length then .enclosing (text.take close).tail else .plain
    | none => .plain
  else .plain

/-- What stands between enclosing parentheses is shorter than the text. -/
theorem Scan.length_lt_of_lead {text inner : List Char} (h : lead text = .enclosing inner) :
    inner.length < text.length := by
  cases text with
  | nil => simp [lead] at h
  | cons c rest =>
    have hinner : ∃ close, inner = ((c :: rest).take close).tail := by
      simp only [lead] at h
      split at h
      · split at h
        · contradiction
        · split at h
          · exact ⟨_, (Lead.enclosing.inj h).symm⟩
          · contradiction
        · contradiction
      · contradiction
    obtain ⟨close, rfl⟩ := hinner
    simp only [List.length_tail, List.length_take, List.length_cons]
    omega

/-- How a text falls apart. -/
inductive Outline where
  | defect (error : ParseError)
  | literal (l : Literal)
  | group (body : Outline)
  | chain (op : Operator) (text : List Char) (operands : List Outline)

namespace Outline

open Scan

/-- The outline of a text without blanks. Sums are split before products, and all signs of one
operator at once. A group without a body is a defect, so none is left to be found in the
expression. -/
def ofText (text : List Char) : Outline :=
  if text = [] then .defect .emptyFragment
  else
    match _hlead : lead text with
    | .hollow => .defect .emptyGroup
    | .enclosing inner => .group (ofText inner)
    | .plain =>
      match _hsplit : splitPoint text with
      | some (_, op) =>
        .chain op text ((operands op text).attach.map fun ⟨piece, _hpiece⟩ => ofText piece)
      | none =>
        match Literal.ofText? text with
        | some l => .literal l
        | none => .defect (.invalidLiteral text)
termination_by text.length
decreasing_by
  · exact length_lt_of_lead _hlead
  · exact length_lt_of_mem_operands _hsplit _hpiece

mutual
/-- The expression that the outline stands for, or its first defect. -/
def result : Outline → Except ParseError Expr
  | defect e => .error e
  | literal l => .ok (.literal () l)
  | group body => do
    let inner ← body.result
    return .branch () .group [inner]
  | chain op _ operands => do
    let parts ← resultAll operands
    return .branch () (.chain op) parts

/-- The expressions that several outlines stand for, or their first defect. -/
def resultAll : List Outline → Except ParseError (List Expr)
  | [] => .ok []
  | o :: os => do
    let first ← o.result
    let others ← resultAll os
    return first :: others
end

/-- A text that was split: what it was, into how many operands, and of which operator. -/
structure Split where
  text : List Char
  count : Nat
  op : Operator
deriving DecidableEq, Repr

mutual
/-- The splits met on the way to the result, each before those of its operands. What lies after
the first defect is not looked at. -/
def splits : Outline → List Split
  | defect _ => []
  | literal _ => []
  | group body => body.splits
  | chain op text operands => ⟨text, operands.length, op⟩ :: splitsAll operands

/-- The splits met in several outlines, up to their first defect. -/
def splitsAll : List Outline → List Split
  | [] => []
  | o :: os =>
    match o.result with
    | .ok _ => o.splits ++ splitsAll os
    | .error _ => o.splits
end

end Outline

end Rearrange
