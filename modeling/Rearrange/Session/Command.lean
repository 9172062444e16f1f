import Rearrange.Session.Basic

namespace Rearrange

/-- A command to a session. -/
inductive Command where
  | select (index : Int)
  | selectPath (path : List Int)
  | reset
  | candidates
  | preview (position : Int)
  | moveTo (position : Int)
  | commit
deriving DecidableEq, Repr

/-- What a command answers. -/
inductive Answer where
  /-- The label of the node that is focused now. -/
  | focused (label : String)
  /-- Nothing but that the focus is the root. -/
  | reset
  /-- The placements to choose from. -/
  | candidates (ps : List Placement)
  /-- One placement. -/
  | candidate (p : Placement)
  /-- The label of the root after a move. -/
  | moved (label : String)
  /-- The text committed. -/
  | committed (text : List Char)

namespace Session

/-- The label of a node of the session. -/
def label (s : Session) (id : NodeId) : String :=
  (s.store.expr id).label

/-- Carries out a command. -/
def perform (s : Session) : Command → Outcome Answer
  | .select index => (s.select index).map fun id => .focused (s.label id)
  | .selectPath path => (s.selectPath path).map fun id => .focused (s.label id)
  | .reset => s.reset.map fun _ => .reset
  | .candidates =>
    let o := s.candidates
    o.map fun cs => .candidates (cs.map o.session.store.shown)
  | .preview position =>
    let o := s.preview position
    o.map fun c => .candidate (o.session.store.shown c)
  | .moveTo position =>
    let o := s.moveTo position
    o.map fun _ => .moved (o.session.label o.session.root)
  | .commit => s.commit.map .committed

/-- Carries out a command and drops what is no longer used. -/
def step (s : Session) (c : Command) : Outcome Answer :=
  let o := s.perform c
  { o with session := o.session.sweep }

/-- The session after a run. -/
def run (s : Session) : List Command → Session
  | [] => s
  | c :: cs => (s.step c).session.run cs

end Session

end Rearrange
