import Rearrange.Tree.Datum

namespace Rearrange

/-- The identity of a node. -/
abbrev NodeId := Nat

/-- What a node consists of: a literal, or a shape with its children. -/
inductive Content where
  | literal (l : Literal)
  | branch (shape : Shape) (children : List NodeId)
deriving DecidableEq

/-- The state of a node. -/
structure Cell where
  content : Content
  handle : Option Handle := none
  parent : Option NodeId := none

/-- What is read where no node was made: a group without children, handle and parent. -/
def Cell.vacant : Cell := ⟨.branch .group [], none, none⟩

/-- The nodes made so far. -/
structure Store where
  cells : Array Cell

namespace Content

/-- The kind of a node. -/
def kind : Content → Kind
  | literal _ => .literal
  | branch s _ => .branch s

/-- The children of a node. -/
def children : Content → List NodeId
  | literal _ => []
  | branch _ cs => cs

/-- The content with other children. A literal stays as it is. -/
def withChildren (cs : List NodeId) : Content → Content
  | literal l => literal l
  | branch s _ => branch s cs

end Content

namespace Store

/-- The store without nodes. -/
def empty : Store := ⟨#[]⟩

instance : EmptyCollection Store := ⟨empty⟩

/-- The number of nodes made so far. -/
def size (s : Store) : Nat := s.cells.size

/-- The state of a node. -/
def cell (s : Store) (id : NodeId) : Cell := s.cells.getD id .vacant

/-- The kind of a node. -/
def kind (s : Store) (id : NodeId) : Kind := (s.cell id).content.kind

/-- The children of a node, in order. -/
def children (s : Store) (id : NodeId) : List NodeId := (s.cell id).content.children

/-- The handle of a node. -/
def handle (s : Store) (id : NodeId) : Option Handle := (s.cell id).handle

/-- The node that a node was attached to last. -/
def parent (s : Store) (id : NodeId) : Option NodeId := (s.cell id).parent

/-- Makes a node. -/
def push (s : Store) (c : Cell) : Store := ⟨s.cells.push c⟩

/-- Drops the nodes made after there were so many. -/
def upTo (s : Store) (size : Nat) : Store := ⟨s.cells.take size⟩

/-- Changes the state of a node. -/
def modify (s : Store) (id : NodeId) (f : Cell → Cell) : Store := ⟨s.cells.modify id f⟩

/-- Gives a node a handle, or takes its handle away. -/
def setHandle (s : Store) (id : NodeId) (handle : Option Handle) : Store :=
  s.modify id fun c => { c with handle }

/-- Makes a node remember a parent. -/
def setParent (s : Store) (id : NodeId) (parent : NodeId) : Store :=
  s.modify id fun c => { c with parent := some parent }

/-- Makes several nodes remember one parent. -/
def adopt (s : Store) (parent : NodeId) (cs : List NodeId) : Store :=
  cs.foldl (fun s c => s.setParent c parent) s

/-- Gives a node other children, which remember it as their parent. -/
def relink (s : Store) (id : NodeId) (cs : List NodeId) : Store :=
  (s.modify id fun c => { c with content := c.content.withChildren cs }).adopt id cs

theorem size_push (s : Store) (c : Cell) : (s.push c).size = s.size + 1 := by
  simp [size, push]

theorem size_modify (s : Store) (id : NodeId) (f : Cell → Cell) :
    (s.modify id f).size = s.size := by
  simp [size, modify]

/-- A new node is the one that was to be made next. -/
theorem cell_push_size (s : Store) (c : Cell) : (s.push c).cell s.size = c := by
  simp [cell, push, size]

/-- Making a node changes none that is there. -/
theorem cell_push_of_lt {s : Store} {c : Cell} {id : NodeId} (h : id < s.size) :
    (s.push c).cell id = s.cell id := by
  simp only [size] at h
  simp [cell, push, Array.getElem?_push, Nat.ne_of_lt h]

/-- A write to one node changes no other. -/
theorem cell_modify_of_ne {s : Store} {id other : NodeId} {f : Cell → Cell} (h : other ≠ id) :
    (s.modify id f).cell other = s.cell other := by
  simp [cell, modify, Array.getElem?_modify, Ne.symm h]

theorem cell_modify_self {s : Store} {id : NodeId} {f : Cell → Cell} (h : id < s.size) :
    (s.modify id f).cell id = f (s.cell id) := by
  simp only [size] at h
  simp [cell, modify, h, Array.getElem_modify]

theorem size_adopt (s : Store) (parent : NodeId) (cs : List NodeId) :
    (s.adopt parent cs).size = s.size := by
  induction cs generalizing s with
  | nil => rfl
  | cons c cs ih => simpa [adopt] using (ih (s.setParent c parent)).trans (size_modify ..)

theorem size_relink (s : Store) (id : NodeId) (cs : List NodeId) :
    (s.relink id cs).size = s.size := by
  rw [relink, size_adopt, size_modify]

end Store

end Rearrange
