namespace Rearrange.Text

/-- A block of characters that stands in two texts: where it starts in each, and how long it is. -/
structure CommonBlock where
  first : Nat
  second : Nat
  length : Nat
deriving DecidableEq, Repr

/-- How many characters two texts share at their start. -/
def sharedLength : List Char → List Char → Nat
  | a :: as, b :: bs => if a = b then sharedLength as bs + 1 else 0
  | _, _ => 0

/-- Among the blocks that start the first text, the longest that stands in the second, there at its
earliest place. -/
def startingBlock (a : List Char) : List Char → CommonBlock
  | [] => ⟨0, 0, 0⟩
  | c :: bs =>
    let later := startingBlock a bs
    let here := sharedLength a (c :: bs)
    if later.length ≤ here then ⟨0, 0, here⟩ else { later with second := later.second + 1 }

/-- The longest block common to two texts: of several the one that starts earliest in the first
text, there at its earliest place in the second. -/
def longestBlock : List Char → List Char → CommonBlock
  | [], _ => ⟨0, 0, 0⟩
  | c :: as, b =>
    let later := longestBlock as b
    let here := startingBlock (c :: as) b
    if later.length ≤ here.length then { here with first := 0 }
    else { later with first := later.first + 1 }

/-- A common block that is not empty starts inside the first text. -/
theorem first_longestBlock_lt {a b : List Char} (h : 0 < (longestBlock a b).length) :
    (longestBlock a b).first < a.length := by
  induction a with
  | nil => simp [longestBlock] at h
  | cons c as ih =>
    simp only [longestBlock] at h ⊢
    split
    · exact Nat.succ_pos _
    · next hlonger =>
      rw [if_neg hlonger] at h
      exact Nat.succ_lt_succ (ih h)

/-- How many characters of two texts are matched. -/
def matched (a b : List Char) : Nat :=
  let block := longestBlock a b
  if _ : 0 < block.length then
    block.length + matched (a.take block.first) (b.take block.second) +
      matched (a.drop (block.first + block.length)) (b.drop (block.second + block.length))
  else 0
termination_by a.length
decreasing_by
  all_goals
    have hpos : 0 < (longestBlock a b).length := ‹_›
    have hlt := first_longestBlock_lt hpos
    simp only [List.length_take, List.length_drop]
    omega

/-- Whether two texts are alike. -/
def isSimilar (a b : List Char) : Bool :=
  3 * (a.length + b.length) ≤ 10 * matched a b

/-- Whether the first name is to be listed before the second as like a given one: if a greater
share of it is matched, or as great a share and it comes later in the order of texts. -/
def isCloser (given : List Char) (a b : String) : Bool :=
  let shareA := matched a.toList given * (b.length + given.length)
  let shareB := matched b.toList given * (a.length + given.length)
  shareB < shareA || (shareB == shareA && b ≤ a)

/-- Up to three names that are like a given one and closest to it, in the order of texts. -/
def suggestions (given : List Char) (names : List String) : List String :=
  let similar := names.filter fun name => isSimilar name.toList given
  ((similar.mergeSort (isCloser given)).take 3).mergeSort

example : longestBlock "--json".toList "--jsn".toList = ⟨0, 0, 4⟩ := by decide +kernel

example : isSimilar "--json".toList "--jsn".toList = true := by decide +kernel

example : isSimilar "parse".toList "foo".toList = false := by decide +kernel

end Rearrange.Text
