import Rearrange.Placement
import Rearrange.Store.Liveness

namespace Rearrange

/-- A store with names for nodes. -/
structure Workspace where
  store : Store := ∅
  names : List (String × NodeId) := []

namespace Workspace

/-- The node with a name. -/
def node? (w : Workspace) (name : String) : Option NodeId :=
  w.names.lookup name

/-- Takes a name away. -/
def drop (w : Workspace) (name : String) : Workspace :=
  { w with names := w.names.filter (·.1 ≠ name) }

/-- Gives a node a name, which it takes from any node that had it. -/
def bind (w : Workspace) (name : String) (id : NodeId) : Workspace :=
  { w with names := (name, id) :: (w.drop name).names }

/-- The names of a node in their order. -/
def namesOf (w : Workspace) (id : NodeId) : List String :=
  ((w.names.filter (·.2 = id)).map (·.1)).mergeSort

/-- Drops what no named node keeps. -/
def settle (w : Workspace) : Workspace :=
  { w with store := w.store.sweep (w.names.map (·.2)) }

/-- Names nodes by numbering a common stem. -/
def bindAll (w : Workspace) (stem : String) (ids : List NodeId) : Workspace :=
  ids.zipIdx.foldl (fun w (id, i) => w.bind (stem ++ toString i) id) w

end Workspace

end Rearrange
