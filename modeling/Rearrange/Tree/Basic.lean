namespace Rearrange

/-- The text of a literal: digits, or a single lower-case letter, in ASCII. -/
def isLiteralText : List Char → Bool
  | [] => false
  | [c] => c.isDigit || c.isLower
  | text => text.all Char.isDigit

/-- A number or a variable. -/
structure Literal where
  text : List Char
  isLiteralText_text : isLiteralText text = true
deriving DecidableEq

/-- The literal with a given text, if there is one. -/
def Literal.ofText? (text : List Char) : Option Literal :=
  if h : isLiteralText text = true then some ⟨text, h⟩ else none

/-- The text of a literal is read as the literal. -/
theorem Literal.ofText?_text (l : Literal) : Literal.ofText? l.text = some l := by
  simp [ofText?, l.isLiteralText_text]

/-- The operators that chain operands. -/
inductive Operator where
  | plus
  | times
deriving DecidableEq, Repr

namespace Operator

/-- The sign written between operands. -/
def symbol : Operator → Char
  | plus => '+'
  | times => '*'

/-- The operator with a given sign. -/
def ofChar? (c : Char) : Option Operator :=
  if c = '+' then some plus else if c = '*' then some times else none

/-- Each operator has one sign, and no other sign stands for it. -/
theorem ofChar?_eq_some_iff {c : Char} {op : Operator} : ofChar? c = some op ↔ c = op.symbol := by
  cases op with
  | plus => simp [ofChar?, symbol]
  | times =>
    simp only [ofChar?, symbol]
    split <;> simp_all

end Operator

/-- What an inner node is: a parenthesised group, or a chain of one operator. -/
inductive Shape where
  | group
  | chain (op : Operator)
deriving DecidableEq, Repr

/-- What a node is. -/
inductive Kind where
  | literal
  | branch (shape : Shape)
deriving DecidableEq, Repr

namespace Kind

/-- The name of a kind in messages and in data. -/
def name : Kind → String
  | literal => "LITERAL"
  | branch .group => "PARENTHETICAL"
  | branch (.chain .plus) => "ADDITIVE"
  | branch (.chain .times) => "MULTIPLICATIVE"

/-- The four kinds. -/
def all : List Kind :=
  [branch (.chain .plus), branch (.chain .times), branch .group, literal]

/-- The kind with a given name. -/
def ofName? (name : String) : Option Kind :=
  all.find? (·.name == name)

/-- Kinds are found by their names. -/
theorem ofName?_name (k : Kind) : ofName? k.name = some k := by
  rcases k with _ | _ | ⟨_ | _⟩ <;> decide

end Kind

/-- An ordered tree whose leaves are literals and whose inner nodes have a shape, with a tag of any
type at each node. Nothing is ruled out: a group may have any number of children, and so may a
chain. -/
inductive Tree (α : Type) where
  | literal (tag : α) (l : Literal)
  | branch (tag : α) (shape : Shape) (children : List (Tree α))

/-- An expression: a tree that carries nothing but its structure. -/
abbrev Expr := Tree Unit

namespace Tree

variable {α β : Type}

/-- The tag of the top node. -/
def tag : Tree α → α
  | literal a _ => a
  | branch a _ _ => a

/-- The kind of the top node. -/
def kind : Tree α → Kind
  | literal _ _ => .literal
  | branch _ s _ => .branch s

/-- The subtrees below the top node, in order. -/
def children : Tree α → List (Tree α)
  | literal _ _ => []
  | branch _ _ cs => cs

/-- The sign of the top node: its text, its operator, or a pair of parentheses. -/
def marker : Tree α → List Char
  | literal _ l => l.text
  | branch _ .group _ => ['(', ')']
  | branch _ (.chain op) _ => [op.symbol]

/-- Whether the tree is a group that holds nothing. -/
def isEmptyGroup : Tree α → Bool
  | branch _ .group [] => true
  | _ => false

mutual
/-- The number of nodes. -/
def size : Tree α → Nat
  | literal _ _ => 1
  | branch _ _ cs => 1 + sizeAll cs

/-- The number of nodes of several trees. -/
def sizeAll : List (Tree α) → Nat
  | [] => 0
  | c :: cs => c.size + sizeAll cs
end

mutual
/-- The tags of all nodes, each node before those below it. -/
def tags : Tree α → List α
  | literal a _ => [a]
  | branch a _ cs => a :: tagsAll cs

/-- The tags of the nodes of several trees, one tree after the other. -/
def tagsAll : List (Tree α) → List α
  | [] => []
  | c :: cs => c.tags ++ tagsAll cs
end

mutual
/-- The tree with every tag replaced. -/
def map (f : α → β) : Tree α → Tree β
  | literal a l => literal (f a) l
  | branch a s cs => branch (f a) s (mapAll f cs)

/-- The trees with every tag replaced. -/
def mapAll (f : α → β) : List (Tree α) → List (Tree β)
  | [] => []
  | c :: cs => c.map f :: mapAll f cs
end

/-- The expression that remains when all tags are dropped. -/
def erase (t : Tree α) : Expr :=
  t.map fun _ => ()

theorem tagsAll_eq_flatMap (cs : List (Tree α)) : tagsAll cs = cs.flatMap tags := by
  induction cs with
  | nil => rfl
  | cons c cs ih => simp [tagsAll, ih]

theorem mapAll_eq_map (f : α → β) (cs : List (Tree α)) : mapAll f cs = cs.map (map f) := by
  induction cs with
  | nil => rfl
  | cons c cs ih => simp [mapAll, ih]

/-- No tree is without nodes. -/
theorem size_pos (t : Tree α) : 0 < t.size := by
  cases t with
  | literal a l => exact Nat.one_pos
  | branch a s cs => exact Nat.add_pos_left Nat.one_pos _

mutual
/-- A walk meets as many nodes as the tree has. -/
theorem length_tags : (t : Tree α) → t.tags.length = t.size
  | literal _ _ => rfl
  | branch _ _ cs => by simp [tags, size, length_tagsAll cs]; omega

theorem length_tagsAll : (cs : List (Tree α)) → (tagsAll cs).length = sizeAll cs
  | [] => rfl
  | c :: cs => by simp [tagsAll, sizeAll, length_tags c, length_tagsAll cs]
end

mutual
/-- Equality of trees is decided by comparing them node by node. -/
def decEq [DecidableEq α] : (t u : Tree α) → Decidable (t = u)
  | literal a l, literal b m =>
    if h : a = b ∧ l = m then isTrue (by simp [h]) else isFalse (by simpa using h)
  | branch a s cs, branch b r ds =>
    if h : a = b ∧ s = r then
      match decEqAll cs ds with
      | isTrue h' => isTrue (by simp [h, h'])
      | isFalse h' => isFalse (by simp [h'])
    else isFalse (by simp; intro ha hs; exact absurd ⟨ha, hs⟩ h)
  | literal _ _, branch _ _ _ => isFalse nofun
  | branch _ _ _, literal _ _ => isFalse nofun

/-- Equality of lists of trees is decided tree by tree. -/
def decEqAll [DecidableEq α] : (ts us : List (Tree α)) → Decidable (ts = us)
  | [], [] => isTrue rfl
  | t :: ts, u :: us =>
    match decEq t u with
    | isTrue h =>
      match decEqAll ts us with
      | isTrue h' => isTrue (by rw [h, h'])
      | isFalse h' => isFalse (by simp [h'])
    | isFalse h => isFalse (by simp [h])
  | [], _ :: _ => isFalse nofun
  | _ :: _, [] => isFalse nofun
end

instance [DecidableEq α] : DecidableEq (Tree α) := decEq

end Tree

end Rearrange
