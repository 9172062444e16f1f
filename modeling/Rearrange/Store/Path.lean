import Rearrange.Store.Edit

namespace Rearrange

/-- Why a node or a place was not found. -/
inductive LookupError where
  /-- A node without parent has no place among siblings. -/
  | rootHasNoParent
  /-- The parent that a node remembers does not list it. -/
  | detached
  /-- A path asks for a child that is not there. -/
  | noChildAt (index : Int) (depth count : Nat)
  /-- The focused node has no such child. -/
  | noChildOfFocus (kind : Kind) (count : Nat) (index : Int)
  /-- There is no such position among the siblings. -/
  | noPosition (position : Int) (last : Nat)
  /-- No child has the indented text that is asked for. -/
  | noMatch (kind : Kind) (wanted : List Char)
  /-- The whole expression has no siblings. -/
  | rootHasNoSiblings
  /-- No node carries the handle of the node that was moved. -/
  | lostHandle

/-- The message shown for a node or a place that was not found. -/
def LookupError.message : LookupError → String
  | rootHasNoParent => "Root fragment has no parent"
  | detached => "Fragment is detached from its recorded parent"
  | noChildAt index depth count => s!"No child {index} at depth {depth} (node has {count})"
  | noChildOfFocus kind count index =>
    s!"Focused {kind.name} node has {count} children, no index {index}"
  | noPosition position last => s!"Position {position} outside 0..{last}"
  | noMatch kind wanted =>
    s!"No child of {kind.name} node matches focused fragment {Text.quote wanted}"
  | rootHasNoSiblings => "The root expression has no siblings to move among"
  | lostHandle => "Moved fragment lost its handle during splice"

/-- The element at an index that may be out of range on either side. -/
def elementAt? {α : Type} (l : List α) (index : Int) : Option α :=
  if index < 0 then none else l[index.toNat]?

namespace Store

/-- The node reached from a node at the given depth by following child indices. -/
def nodeFrom (s : Store) (depth : Nat) (id : NodeId) : List Int → Except LookupError NodeId
  | [] => .ok id
  | index :: path =>
    match elementAt? (s.children id) index with
    | some child => s.nodeFrom (depth + 1) child path
    | none => .error (.noChildAt index depth (s.children id).length)

/-- The node reached from a node by following child indices. -/
def nodeAt (s : Store) (id : NodeId) (path : List Int) : Except LookupError NodeId :=
  s.nodeFrom 0 id path

/-- The place of a node among the children of its parent. -/
def indexInParent (s : Store) (id : NodeId) : Except LookupError Nat :=
  match s.parent id with
  | none => .error .rootHasNoParent
  | some p =>
    match (s.children p).idxOf? id with
    | some i => .ok i
    | none => .error .detached

/-- The node without parent that is met on the way up, if it is met within the given number of
nodes. -/
def rootWithin (s : Store) : Nat → NodeId → Option NodeId
  | 0, _ => none
  | nodes + 1, id =>
    match s.parent id with
    | none => some id
    | some p => s.rootWithin nodes p

/-- The node without parent that is met on the way up. Where the way goes round in a circle, there
is none. -/
def root (s : Store) (id : NodeId) : Option NodeId :=
  s.rootWithin (s.size + 1) id

/-- The places of a node and of those above it, from the node up, within the given number of
steps. -/
def placesWithin (s : Store) : Nat → NodeId → Except LookupError (List Nat)
  | 0, _ => .ok []
  | steps + 1, id =>
    match s.parent id with
    | none => .ok []
    | some p => do
      let i ← s.indexInParent id
      let above ← s.placesWithin steps p
      return i :: above

/-- The child indices that lead to a node from the node without parent above it. -/
def childPath (s : Store) (id : NodeId) : Except LookupError (List Nat) :=
  (s.placesWithin s.size id).map List.reverse

end Store

end Rearrange
