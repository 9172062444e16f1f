import Rearrange.Note
import Rearrange.Store.Path
import Rearrange.Store.Plant

namespace Rearrange

/-- What comes of an operation on a store: its result, the store after it, and the notes left. An
operation that fails leaves a store and notes too. -/
structure Effect (ε α : Type) where
  result : Except ε α
  store : Store
  notes : List Note := []

/-- A placement to choose from: the node that was made for it, the position of the moved child, and
the node that stands there. -/
structure Candidate where
  tree : NodeId
  position : Nat
  moved : NodeId
deriving DecidableEq

/-- A placement as it is looked at, with what a dump shows of its nodes. -/
structure Placement where
  tree : Tree Store.Record
  position : Nat
  moved : Tree Store.Record

namespace Placement

/-- The flat text of the rearranged parent. -/
def flat (p : Placement) : List Char := p.tree.flat

/-- The child indices that lead to the moved child. -/
def path (p : Placement) : List Nat := [p.position]

end Placement

/-- Why a placement cannot be spliced into a node. -/
inductive SpliceError where
  /-- The kinds differ. -/
  | kinds (placement target : Kind)
  /-- The children are not the same up to order. -/
  | children

/-- The message shown for a placement that cannot be spliced. -/
def SpliceError.message : SpliceError → String
  | kinds placement target =>
    s!"Cannot splice {placement.name} candidate into {target.name} node"
  | children => "Candidate children do not match the target's children"

namespace Store

/-- The index of the child that is meant by an indented text and, where equal children would make
the text ambiguous, by an index; without one, the first child with that text. -/
def childMatching (s : Store) (parent : NodeId) (wanted : List Char) (index : Option Int) :
    Option Nat :=
  let cs := s.children parent
  match index with
  | none => cs.findIdx? fun c => (s.expr c).indented 0 == wanted
  | some i =>
    match elementAt? cs i with
    | some c => if (s.expr c).indented 0 == wanted then some i.toNat else none
    | none => none

/-- Makes the placement of a node at a position among its siblings: copies of the siblings, then one
of the node, and a branch that has them as its children. -/
def makePlacement (s : Store) (shape : Shape) (handle : Option Handle) (siblings : List NodeId)
    (focused : NodeId) (position : Nat) : NodeId × Store :=
  let (copies, s) := s.copyAll siblings
  let (moved, s) := s.copyWithHandles focused
  s.makeBranch shape (copies.insertIdx position moved) handle

/-- Makes the placements of a node at several positions among its siblings, one after the other. -/
def makePlacements (s : Store) (shape : Shape) (handle : Option Handle) (siblings : List NodeId)
    (focused : NodeId) : List Nat → List NodeId × Store
  | [] => ([], s)
  | position :: positions =>
    let (made, s) := s.makePlacement shape handle siblings focused position
    let (others, s) := s.makePlacements shape handle siblings focused positions
    (made :: others, s)

/-- Makes the placements of a child at every position below a parent, each as a copy of the parent,
handles kept. -/
def placements (s : Store) (parent : NodeId) (wanted : List Char) (index : Option Int) :
    Effect LookupError (List NodeId) :=
  let cs := s.children parent
  match s.kind parent, s.childMatching parent wanted index with
  | .branch shape, some i =>
    match cs[i]? with
    | some focused =>
      let siblings := cs.eraseIdx i
      let (made, grown) := s.makePlacements shape (s.handle parent) siblings focused
        (List.range (siblings.length + 1))
      { result := .ok made
        store := grown
        notes := [.generated made.length (s.expr focused).flat (.branch shape)] }
    | none => { result := .error (.noMatch (.branch shape) wanted), store := s }
  | kind, _ => { result := .error (.noMatch kind wanted), store := s }

/-- The candidate that a placement at a position is. -/
def candidate (s : Store) (tree : NodeId) (position : Nat) : Candidate :=
  { tree, position, moved := ((s.children tree)[position]?).getD tree }

/-- Makes the candidates for moving a node among its siblings. A node without parent has none. -/
def candidates (s : Store) (focus : NodeId) : Effect LookupError (List Candidate) :=
  match s.parent focus with
  | none => { result := .ok [], store := s }
  | some parent =>
    match s.indexInParent focus with
    | .error e => { result := .error e, store := s }
    | .ok index =>
      let made := s.placements parent ((s.expr focus).indented 0) (some (index : Int))
      match made.result with
      | .error e => { result := .error e, store := made.store, notes := made.notes }
      | .ok trees =>
        { result := .ok (trees.zipIdx.map fun (tree, position) =>
            made.store.candidate tree position)
          store := made.store
          notes := made.notes ++
            [.located (s.expr focus).flat index (s.children parent).length] }

/-- A candidate as it is looked at. -/
def shown (s : Store) (c : Candidate) : Placement :=
  ⟨s.dump c.tree, c.position, s.dump c.moved⟩

/-- Puts a placement into effect: copies of its children, handles kept, become the children of the
target. This is refused, and nothing is changed, unless the kinds agree and the children are the
same up to order. -/
def splice (s : Store) (target placement : NodeId) : Effect SpliceError NodeId :=
  let texts (id : NodeId) := (s.children id).map fun c => (s.expr c).indented 0
  if s.kind target ≠ s.kind placement then
    { result := .error (.kinds (s.kind placement) (s.kind target)), store := s }
  else if (texts target).isPerm (texts placement) then
    let (copies, grown) := s.copyAll (s.children placement)
    { result := .ok target, store := grown.relink target copies }
  else { result := .error .children, store := s }

end Store

end Rearrange
