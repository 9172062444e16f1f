import Rearrange.Placement
import Rearrange.Store.Liveness

namespace Rearrange

/-- The state of an editing session. -/
structure Session where
  store : Store
  root : NodeId
  focus : NodeId
  history : List (List Char) := []
  nextHandle : Nat := 1
  reparse : Bool := true

/-- Why an operation of a session fails. -/
inductive SessionError where
  | lookup (error : LookupError)
  | splice (error : SpliceError)
  | parse (error : ParseError)

/-- The message shown for an operation that fails. -/
def SessionError.message : SessionError → String
  | lookup e => e.message
  | splice e => e.message
  | parse e => e.message

/-- What comes of an operation: its result, the session after it, and the notes left. An operation
that fails leaves a session and notes too. -/
structure Outcome (α : Type) where
  result : Except SessionError α
  session : Session
  notes : List Note := []

/-- The outcome with its result replaced. -/
def Outcome.map {α β : Type} (f : α → β) (o : Outcome α) : Outcome β :=
  { o with result := o.result.map f }

namespace Session

/-- The expression of the session. -/
def expr (s : Session) : Expr := s.store.expr s.root

/-- The flat text of the expression. -/
def text (s : Session) : List Char := s.expr.flat

/-- The handles of all nodes, each node before those below it. -/
def handles (s : Session) : List (Option Handle) :=
  (s.store.walk s.root).map s.store.handle

/-- The child indices that lead to the focused node. -/
def focusPath (s : Session) : Except LookupError (List Nat) :=
  s.store.childPath s.focus

/-- Makes a node the root and the focus of the session and numbers the nodes below it. -/
def load (s : Session) (root : NodeId) : Session :=
  { s with
    store := s.store.number root s.nextHandle
    nextHandle := s.nextHandle + (s.store.walk root).length
    root
    focus := root }

/-- A session about an expression that stands in a store already: on a flattened copy of it, which
leaves the expression as it is. -/
def ofNode (store : Store) (source : NodeId) (reparse : Bool) : Session :=
  let (root, store) := store.copy source
  { store := store.flatten root, root, focus := root, reparse : Session }.load root

/-- A session about an expression. -/
def ofExpr (t : Expr) (reparse : Bool) : Session :=
  ofNode (Store.empty.plant (t.map fun _ => none)) 0 reparse

/-- A session about the expression that a text is read as. -/
def ofText (text : List Char) (reparse : Bool) : Except ParseError Session := do
  let t ← parse text
  return { store := Store.empty.plant (t.map fun _ => none), root := 0, focus := 0,
           reparse : Session }.load 0

/-- Focuses a child of the focused node. -/
def select (s : Session) (index : Int) : Outcome NodeId :=
  let cs := s.store.children s.focus
  match elementAt? cs index with
  | some child => { result := .ok child, session := { s with focus := child } }
  | none =>
    { result := .error (.lookup (.noChildOfFocus (s.store.kind s.focus) cs.length index))
      session := s }

/-- Focuses the node that a path leads to from the root. -/
def selectPath (s : Session) (path : List Int) : Outcome NodeId :=
  match s.store.nodeAt s.root path with
  | .ok id => { result := .ok id, session := { s with focus := id } }
  | .error e => { result := .error (.lookup e), session := s }

/-- Focuses the root. -/
def reset (s : Session) : Outcome Unit :=
  { result := .ok (), session := { s with focus := s.root } }

/-- Makes the candidates for moving the focused node among its siblings. -/
def candidates (s : Session) : Outcome (List Candidate) :=
  let made := s.store.candidates s.focus
  { result := made.result.mapError .lookup
    session := { s with store := made.store }
    notes := made.notes }

/-- Makes the candidate that gives the focused node a position. If there is none, what has been made
is dropped. -/
def preview (s : Session) (position : Int) : Outcome Candidate :=
  let made := s.store.candidates s.focus
  let dropped : Session := { s with store := made.store.upTo s.store.size }
  match made.result with
  | .error e => { result := .error (.lookup e), session := dropped, notes := made.notes }
  | .ok [] =>
    { result := .error (.lookup .rootHasNoSiblings)
      session := dropped
      notes := made.notes ++ [.rootPreviewed] }
  | .ok cs =>
    match elementAt? cs position with
    | some c => { result := .ok c, session := { s with store := made.store }, notes := made.notes }
    | none =>
      { result := .error (.lookup (.noPosition position (cs.length - 1)))
        session := dropped
        notes := made.notes }

/-- Splices a placement of the focused node into its parent and focuses the first node there that
carries the handle of the moved one. -/
def place (s : Session) (target : NodeId) (c : Candidate) : Outcome Unit :=
  let spliced := s.store.splice target c.tree
  let placed : Session := { s with store := spliced.store }
  match spliced.result with
  | .error e => { result := .error (.splice e), session := placed }
  | .ok target =>
    match placed.store.find? target (placed.store.handle c.moved) with
    | none => { result := .error (.lookup .lostHandle), session := placed }
    | some moved =>
      let focused := { placed with focus := moved }
      { result := .ok (), session := focused, notes := [.moved c.position focused.text] }

/-- Moves the focused node to a position among its siblings. -/
def moveTo (s : Session) (position : Int) : Outcome Unit :=
  let previewed := s.preview position
  match previewed.result, previewed.session.store.parent s.focus with
  | .error e, _ => { result := .error e, session := previewed.session, notes := previewed.notes }
  | .ok _, none =>
    { result := .error (.lookup .rootHasNoSiblings)
      session := previewed.session
      notes := previewed.notes }
  | .ok c, some target =>
    let placed := previewed.session.place target c
    { placed with notes := previewed.notes ++ placed.notes }

/-- Adds the text of the expression to the history and focuses the root. If the session is set to,
the text is read again first, and the expression read takes the place of the edited one. -/
def commit (s : Session) : Outcome (List Char) :=
  let text := s.text
  let history := s.history ++ [text]
  if s.reparse then
    match parse text with
    | .error e => { result := .error (.parse e), session := s, notes := parseNotes text }
    | .ok t =>
      let planted := { s with store := s.store.plant (t.map fun _ => none) }
      { result := .ok text
        session := { planted.load s.store.size with history }
        notes := parseNotes text }
  else
    { result := .ok text, session := { s with focus := s.root, history } }

/-- Drops what the session no longer uses. -/
def sweep (s : Session) : Session :=
  { s with store := s.store.sweep [s.root, s.focus] }

end Session

end Rearrange
