import Rearrange.Tree.Basic

namespace Rearrange.Scan

/-- What a character adds to the depth. -/
def weight (c : Char) : Int :=
  if c = '(' then 1 else if c = ')' then -1 else 0

/-- The depth at the end of a text. -/
def depth : List Char → Int
  | [] => 0
  | c :: rest => weight c + depth rest

/-- Whether a text holds as many opening as closing parentheses. -/
def isBalanced (text : List Char) : Bool :=
  text.count '(' == text.count ')'

/-- The index of the first character after which the depth is zero, for a text that starts at the
given depth. -/
def firstZero (depth : Int) : List Char → Option Nat
  | [] => none
  | c :: rest =>
    if depth + weight c = 0 then some 0 else (firstZero (depth + weight c) rest).map (· + 1)

/-- The index of the character that closes a parenthesis taken to stand at the start. -/
def matchingClose (text : List Char) : Option Nat :=
  (firstZero 1 text.tail).map (· + 1)

/-- The operators at depth zero with their indices, for a text whose first character has the given
index and depth. -/
def operatorsFrom (index : Nat) (depth : Int) : List Char → List (Nat × Operator)
  | [] => []
  | c :: rest =>
    let later := operatorsFrom (index + 1) (depth + weight c) rest
    match Operator.ofChar? c with
    | some op => if depth = 0 then (index, op) :: later else later
    | none => later

/-- The top-level operators of a text with their indices. -/
def topLevelOperators (text : List Char) : List (Nat × Operator) :=
  operatorsFrom 0 0 text

/-- Where a text is split and into operands of which operator: at its first top-level plus or, if
it has none, at its first top-level times. -/
def splitPoint (text : List Char) : Option (Nat × Operator) :=
  let found := topLevelOperators text
  (found.find? (·.2 = .plus)).or (found.find? (·.2 = .times))

/-- The pieces between the signs of one operator at depth zero, for a text that starts at the
given depth. -/
def piecesFrom (op : Operator) (depth : Int) : List Char → List (List Char)
  | [] => [[]]
  | c :: rest =>
    if depth = 0 ∧ c = op.symbol then
      [] :: piecesFrom op depth rest
    else
      (piecesFrom op (depth + weight c) rest).modifyHead (c :: ·)

/-- The operands of a text under one operator: the pieces between its top-level signs. -/
def operands (op : Operator) (text : List Char) : List (List Char) :=
  piecesFrom op 0 text

/-- Operators leave the depth as it is. -/
theorem weight_symbol (op : Operator) : weight op.symbol = 0 := by
  cases op <;> rfl

/-- Even an empty text has one piece. -/
theorem piecesFrom_ne_nil (op : Operator) (depth : Int) (text : List Char) :
    piecesFrom op depth text ≠ [] := by
  induction text generalizing depth with
  | nil => simp [piecesFrom]
  | cons c rest ih =>
    rw [piecesFrom]
    split
    · simp
    · cases h : piecesFrom op (depth + weight c) rest with
      | nil => exact absurd h (ih _)
      | cons p ps => simp [List.modifyHead]

/-- Splitting neither loses nor adds a character: the pieces are as long as the text less the
signs between them. -/
private theorem length_flatten_piecesFrom (op : Operator) (depth : Int) (text : List Char) :
    (piecesFrom op depth text).flatten.length + (piecesFrom op depth text).length =
      text.length + 1 := by
  induction text generalizing depth with
  | nil => simp [piecesFrom]
  | cons c rest ih =>
    rw [piecesFrom]
    split
    · have := ih depth
      simp only [List.flatten_cons, List.nil_append, List.length_cons]
      omega
    · have := ih (depth + weight c)
      cases h : piecesFrom op (depth + weight c) rest with
      | nil => exact (piecesFrom_ne_nil op _ rest h).elim
      | cons p ps =>
        simp only [h, List.flatten_cons, List.length_append, List.length_cons,
          List.modifyHead_cons] at *
        omega

/-- There is one piece more than there are signs to split at. -/
private theorem length_piecesFrom (op : Operator) (index : Nat) (depth : Int) (text : List Char) :
    (piecesFrom op depth text).length =
      ((operatorsFrom index depth text).filter (·.2 = op)).length + 1 := by
  induction text generalizing index depth with
  | nil => simp [piecesFrom, operatorsFrom]
  | cons c rest ih =>
    rw [piecesFrom, operatorsFrom]
    by_cases hc : c = op.symbol
    · subst hc
      have hw : depth + weight op.symbol = depth := by rw [weight_symbol]; omega
      have hop : Operator.ofChar? op.symbol = some op := Operator.ofChar?_eq_some_iff.mpr rfl
      by_cases hd : depth = 0
      · simp [hd, hop, weight_symbol, ih (index + 1)]
      · simp [hd, hop, weight_symbol, ih (index + 1)]
    · simp only [hc, and_false, if_false, List.length_modifyHead, ih (index + 1)]
      cases hop : Operator.ofChar? c with
      | none => rfl
      | some op' =>
        have hne : op' ≠ op := by
          rintro rfl
          exact hc (Operator.ofChar?_eq_some_iff.mp hop)
        by_cases hd : depth = 0 <;> simp [hd, hne]

/-- A text is split at one of its top-level operators. -/
theorem mem_topLevelOperators_of_splitPoint {text : List Char} {index : Nat} {op : Operator}
    (h : splitPoint text = some (index, op)) : (index, op) ∈ topLevelOperators text := by
  rw [splitPoint, Option.or_eq_some_iff] at h
  rcases h with h | ⟨_, h⟩ <;> exact List.mem_of_find?_eq_some h

/-- No piece is longer than all pieces together. -/
private theorem length_le_length_flatten_of_mem {piece : List Char} {pieces : List (List Char)}
    (h : piece ∈ pieces) : piece.length ≤ pieces.flatten.length :=
  (List.sublist_flatten_of_mem h).length_le

/-- Every operand of a text that is split is shorter than the text. -/
theorem length_lt_of_mem_operands {text piece : List Char} {index : Nat} {op : Operator}
    (h : splitPoint text = some (index, op)) (hmem : piece ∈ operands op text) :
    piece.length < text.length := by
  have hop : (index, op) ∈ (topLevelOperators text).filter (·.2 = op) := by
    simpa using mem_topLevelOperators_of_splitPoint h
  have hmany := length_piecesFrom op 0 0 text
  have hsum := length_flatten_piecesFrom op 0 text
  have hpos := List.length_pos_of_mem hop
  have hle := length_le_length_flatten_of_mem (show piece ∈ piecesFrom op 0 text from hmem)
  simp only [topLevelOperators] at hpos
  omega

end Rearrange.Scan
