import Rearrange.Store.Edit

namespace Rearrange.Store

mutual
/-- Makes the nodes of a tree: first the top, without children, then one after the other the trees
below it, each of which is attached to the top when it is finished. So the first node made, which is
the next one to be made, is the top. -/
def plant (s : Store) : Tree (Option Handle) → Store
  | .literal handle l => s.push { content := .literal l, handle }
  | .branch handle shape cs => (s.push { content := .branch shape [], handle }).plantBelow s.size cs

/-- Makes the nodes of trees and attaches the trees to a node. -/
def plantBelow (s : Store) (top : NodeId) : List (Tree (Option Handle)) → Store
  | [] => s
  | c :: cs => ((s.plant c).attach top s.size).plantBelow top cs
end

/-- Makes a copy of the tree that a store shows below a node, down to the given depth, in a store
that has grown out of it. As when a tree is planted, a node is copied first, without its children,
and copies of the children are attached to the copy one after the other. What is copied is read off
the store as it was at first, to which copying does nothing. -/
def copyWithin (source : Store) (keepHandles : Bool) : Nat → Store → NodeId → NodeId × Store
  | depth, s, id =>
    let c := source.cell id
    let made := s.push
      { content := c.content.withChildren [], handle := if keepHandles then c.handle else none }
    (s.size, match depth with
      | 0 => made
      | depth + 1 => c.content.children.foldl (fun grown child =>
          let (copied, grown) := source.copyWithin keepHandles depth grown child
          grown.attach s.size copied) made)

/-- Makes a copy of the tree below a node, without handles. -/
def copy (s : Store) (id : NodeId) : NodeId × Store :=
  s.copyWithin false s.size s id

/-- Makes a copy of the tree below a node, with the handles. -/
def copyWithHandles (s : Store) (id : NodeId) : NodeId × Store :=
  s.copyWithin true s.size s id

/-- Makes copies of the trees below nodes, with the handles, one after the other. -/
def copyAll (s : Store) : List NodeId → List NodeId × Store
  | [] => ([], s)
  | id :: ids =>
    let (copied, s) := s.copyWithHandles id
    let (others, s) := s.copyAll ids
    (copied :: others, s)

mutual
/-- Makes the nodes of the tree that data describe, without handles: first those of the children in
their order, then the node that gets them as its children. -/
def ofDatum (s : Store) : Datum → Except DatumError (NodeId × Store)
  | .object fields => do
    let kind ← (Kind.ofFields fields).mapError .fragment
    let (cs, s) ← s.ofChildrenField fields
    (s.make kind ((fields.lookup "literal").getD .null) cs none).mapError .fragment
  | _ => throw .wrongType

/-- Makes the children of an object: those listed under their name, and none if there is no such
field or if it is empty. -/
def ofChildrenField (s : Store) :
    List (String × Datum) → Except DatumError (List NodeId × Store)
  | [] => return ([], s)
  | (name, value) :: rest =>
    if name = "children" then s.ofChildren value else s.ofChildrenField rest

/-- Makes children from a list. Empty text and an empty object stand for no children. -/
def ofChildren (s : Store) : Datum → Except DatumError (List NodeId × Store)
  | .array items => s.ofItems items
  | .object fields => if fields.isEmpty then return ([], s) else throw .wrongType
  | .text given => if given.isEmpty then return ([], s) else throw .wrongType
  | _ => throw .wrongType

/-- Makes the trees of a list in their order. -/
def ofItems (s : Store) : List Datum → Except DatumError (List NodeId × Store)
  | [] => return ([], s)
  | item :: items => do
    let (first, s) ← s.ofDatum item
    let (others, s) ← s.ofItems items
    return (first :: others, s)
end

end Rearrange.Store
