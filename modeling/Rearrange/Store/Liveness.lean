import Rearrange.Store.View

namespace Rearrange.Store

/-- The nodes that can be reached downwards from the given ones, with repetitions. -/
def reached (s : Store) (roots : List NodeId) : List NodeId :=
  roots.flatMap s.walk

/-- For each node whether it is live. -/
def marks (s : Store) (roots : List NodeId) : Array Bool :=
  (s.reached roots).foldl (fun marked id => marked.setIfInBounds id true)
    (Array.replicate s.size false)

/-- Makes every node forget a parent that is no longer live. Nodes are kept from below only, so the
memory of a parent is lost with the parent. -/
def sweep (s : Store) (roots : List NodeId) : Store :=
  let live := s.marks roots
  ⟨s.cells.map fun c => { c with parent := c.parent.filter fun p => live.getD p false }⟩

/-- Sweeping keeps all nodes; only parents are forgotten. -/
theorem size_sweep (s : Store) (roots : List NodeId) : (s.sweep roots).size = s.size := by
  simp [sweep, size]

end Rearrange.Store
