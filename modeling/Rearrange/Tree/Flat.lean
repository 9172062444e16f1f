import Rearrange.Tree.Basic

namespace Rearrange.Tree

variable {α : Type}

mutual
/-- The text of the expression. A group shows its first child only. -/
def flat : Tree α → List Char
  | literal _ l => l.text
  | branch _ .group cs => '(' :: (flatAll cs).headD [] ++ [')']
  | branch _ (.chain op) cs => [op.symbol].intercalate (flatAll cs)

/-- The texts of several expressions. -/
def flatAll : List (Tree α) → List (List Char)
  | [] => []
  | c :: cs => c.flat :: flatAll cs
end

mutual
/-- One line for each node, each node before those below it, with as many tabulators as the node
is deep. The depth of the top node is given; a negative depth shows as none. -/
def indented (depth : Int) : Tree α → List Char
  | literal _ l => List.replicate depth.toNat '\t' ++ l.text ++ ['\n']
  | branch a s cs =>
    List.replicate depth.toNat '\t' ++ (branch a s cs).marker ++ ['\n'] ++
      indentedAll (depth + 1) cs

/-- The lines of several trees. -/
def indentedAll (depth : Int) : List (Tree α) → List Char
  | [] => []
  | c :: cs => c.indented depth ++ indentedAll depth cs
end

/-- The flat text as a string. -/
def text (t : Tree α) : String :=
  String.ofList t.flat

/-- The kind and the flat text, as messages and answers name a node. -/
def label (t : Tree α) : String :=
  t.kind.name ++ "[" ++ t.text ++ "]"

theorem flatAll_eq_map (cs : List (Tree α)) : flatAll cs = cs.map flat := by
  induction cs with
  | nil => rfl
  | cons c cs ih => simp [flatAll, ih]

end Rearrange.Tree
