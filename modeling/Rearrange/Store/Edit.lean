import Rearrange.Store.View

namespace Rearrange

/-- A kind of node given by a name that is not one of the four. -/
structure UnknownKind where
  given : Datum

/-- The message shown for a name that is not one of the four. -/
def UnknownKind.message (e : UnknownKind) : String :=
  e.given.quote ++ " is not a valid CompoundType"

/-- The kind that a datum names. -/
def Kind.ofDatum (given : Datum) : Except UnknownKind Kind :=
  match given with
  | .text name =>
    match ofName? name with
    | some kind => .ok kind
    | none => .error ⟨given⟩
  | _ => .error ⟨given⟩

namespace Store

/-- Makes a node of a shape and gives it children. -/
def makeBranch (s : Store) (shape : Shape) (cs : List NodeId) (handle : Option Handle) :
    NodeId × Store :=
  (s.size, (s.push { content := .branch shape [], handle }).relink s.size cs)

/-- Makes a node of a kind from the text given for it and from nodes that become its children. -/
def make (s : Store) (kind : Kind) (given : Datum) (cs : List NodeId) (handle : Option Handle) :
    Except FragmentError (NodeId × Store) := do
  match ← kind.head given cs.isEmpty with
  | .literal l => return (s.size, s.push { content := .literal l, handle })
  | .branch shape => return s.makeBranch shape cs handle

/-- Puts a node below another, after the children that are there. -/
def attach (s : Store) (id child : NodeId) : Store :=
  let extend (c : Cell) := c.content.withChildren (c.content.children ++ [child])
  (s.modify id fun c => { c with content := extend c }).setParent child id

/-- Attaches a node below another, unless the other is a literal. -/
def addChild (s : Store) (id child : NodeId) : Except FragmentError Store :=
  match s.kind id with
  | .literal => throw .literalWithChildren
  | .branch _ => return s.attach id child

/-- Replaces the children of a node. A literal can only be given none. -/
def setChildren (s : Store) (id : NodeId) (cs : List NodeId) : Except FragmentError Store :=
  match s.kind id with
  | .literal => if cs.isEmpty then return s else throw .literalWithChildren
  | .branch _ => return s.relink id cs

/-- The children that a node of a shape has once children that are chains of its operator give way
to their own children. -/
def merged (s : Store) : Shape → List NodeId → List NodeId
  | .group, cs => cs
  | .chain op, cs =>
    cs.flatMap fun c => if s.kind c = .branch (.chain op) then s.children c else [c]

/-- Merges children that are chains of a node's own operator into the node. -/
def absorb (s : Store) (id : NodeId) : Store :=
  match s.kind id with
  | .branch (.chain op) => s.relink id (s.merged (.chain op) (s.children id))
  | _ => s

/-- Flattens the tree below a node in place, down to the given depth. -/
def flattenWithin : Nat → Store → NodeId → Store
  | 0, s, _ => s
  | depth + 1, s, id => ((s.children id).foldl (flattenWithin depth) s).absorb id

/-- Flattens the tree below a node in place: every chain is merged into the chain of the same
operator above it, from the leaves up. -/
def flatten (s : Store) (id : NodeId) : Store :=
  flattenWithin s.size s id

/-- Flattens the tree below a node in place and gives the node back. -/
def flattened (s : Store) (id : NodeId) : NodeId × Store :=
  (id, s.flatten id)

/-- Numbers nodes from the given number on. A node that occurs twice keeps its last number. -/
def numberAll (s : Store) (start : Int) : List NodeId → Store
  | [] => s
  | id :: ids => (s.setHandle id (some (.integer start))).numberAll (start + 1) ids

/-- Numbers the nodes below a node from the given number on, each before those below it. -/
def number (s : Store) (id : NodeId) (start : Int) : Store :=
  s.numberAll start (s.walk id)

end Store

end Rearrange
