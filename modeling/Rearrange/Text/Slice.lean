namespace Rearrange

/-- The place that a bound stands for in a list of the given length. -/
def sliceBound (length : Nat) (bound : Int) : Nat :=
  if bound < 0 then (length + bound).toNat else min bound.toNat length

/-- The elements from one bound up to another. -/
def slice {α : Type} (l : List α) (start stop : Int) : List α :=
  let first := sliceBound l.length start
  (l.drop first).take (sliceBound l.length stop - first)

example : slice [1, 2, 3] 0 (-1) = [1, 2] := by decide

example : slice [1, 2, 3] 2 1 = [] := by decide

end Rearrange
