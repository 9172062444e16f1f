import Rearrange.Store.Basic
import Rearrange.Tree.Flatten

namespace Rearrange.Store

/-- The tree below a node down to the given depth, with the identities of the nodes. Where the lists
of children share a node, it stands at every place. -/
def treeWithin (s : Store) : Nat → NodeId → Tree NodeId
  | depth, id =>
    match (s.cell id).content with
    | .literal l => .literal id l
    | .branch shape cs =>
      .branch id shape (match depth with
        | 0 => []
        | depth + 1 => cs.map fun c => s.treeWithin depth c)

/-- The tree below a node. A way down that is longer than there are nodes goes round in a circle,
and is cut off. -/
def tree (s : Store) (id : NodeId) : Tree NodeId :=
  s.treeWithin s.size id

/-- The expression that a node stands for. -/
def expr (s : Store) (id : NodeId) : Expr :=
  (s.tree id).erase

/-- The tree below a node with the handles of its nodes. -/
def labelled (s : Store) (id : NodeId) : Tree (Option Handle) :=
  (s.tree id).map s.handle

/-- The nodes below a node, itself included, each before those below it. -/
def walk (s : Store) (id : NodeId) : List NodeId :=
  (s.tree id).tags

/-- Whether a node is among those below another, or is that node. -/
def contains (s : Store) (id other : NodeId) : Bool :=
  (s.walk id).contains other

/-- Whether all children of a node remember it as their parent. -/
def isLinked (s : Store) (id : NodeId) : Bool :=
  (s.children id).all fun c => s.parent c == some id

/-- The first node of a walk whose handle is the given one. -/
def find? (s : Store) (id : NodeId) (handle : Option Handle) : Option NodeId :=
  match handle with
  | none => none
  | some wanted => (s.walk id).find? fun n => (s.handle n).any (·.same wanted)

/-- What a dump of a store shows of a node. -/
structure Record where
  handle : Option Handle
  linked : Bool

/-- The tree below a node with what a dump shows. -/
def dump (s : Store) (id : NodeId) : Tree Record :=
  (s.tree id).map fun n => ⟨s.handle n, s.isLinked n⟩

end Rearrange.Store
