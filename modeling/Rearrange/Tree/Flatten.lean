import Rearrange.Tree.Basic

namespace Rearrange

/-- Puts the operands of a chain of the given operator in its place. -/
def Operator.inline {α : Type} (op : Operator) : Tree α → List (Tree α)
  | .branch a (.chain op') cs => if op' = op then cs else [.branch a (.chain op') cs]
  | t => [t]

/-- The operands that a node of the given shape has once chains of its operator are merged. -/
def Shape.merge {α : Type} : Shape → List (Tree α) → List (Tree α)
  | .group, cs => cs
  | .chain op, cs => cs.flatMap op.inline

/-- Whether one of the trees could be merged into a node of the given shape. -/
def Shape.absorbs {α : Type} : Shape → List (Tree α) → Bool
  | .group, _ => false
  | .chain op, cs => cs.any (·.kind = .branch (.chain op))

namespace Tree

variable {α : Type}

mutual
/-- The tree with every chain merged into the chain of the same operator above it. -/
def flatten : Tree α → Tree α
  | literal a l => literal a l
  | branch a s cs => branch a s (s.merge (flattenAll cs))

/-- The trees, each flattened. -/
def flattenAll : List (Tree α) → List (Tree α)
  | [] => []
  | c :: cs => c.flatten :: flattenAll cs
end

mutual
/-- Whether no chain stands directly below a chain of the same operator. -/
def isFlat : Tree α → Bool
  | literal _ _ => true
  | branch _ s cs => !s.absorbs cs && isFlatAll cs

/-- Whether all the trees are flat. -/
def isFlatAll : List (Tree α) → Bool
  | [] => true
  | c :: cs => c.isFlat && isFlatAll cs
end

theorem flattenAll_eq_map (cs : List (Tree α)) : flattenAll cs = cs.map flatten := by
  induction cs with
  | nil => rfl
  | cons c cs ih => simp [flattenAll, ih]

theorem isFlatAll_eq_all (cs : List (Tree α)) : isFlatAll cs = cs.all isFlat := by
  induction cs with
  | nil => rfl
  | cons c cs ih => simp [isFlatAll, ih]

end Tree

end Rearrange
