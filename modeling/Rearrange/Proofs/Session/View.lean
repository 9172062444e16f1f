import Rearrange.Proofs.Parse.RoundTrip
import Rearrange.Proofs.Placement
import Rearrange.Session.Command

namespace Rearrange

/-- What a dump shows of a node, without its handle. -/
def Store.Record.bare (r : Store.Record) : Store.Record :=
  { r with handle := none }

/-- The placement without its handles. -/
def Placement.bare (p : Placement) : Placement :=
  { p with tree := p.tree.map Store.Record.bare, moved := p.moved.map Store.Record.bare }

/-- The answer without the handles in it. -/
def Answer.bare : Answer → Answer
  | .candidates ps => .candidates (ps.map Placement.bare)
  | .candidate p => .candidate p.bare
  | a => a

/-- A commit tells no handles. -/
theorem Answer.map_bare_eq_committed_iff {result : Except SessionError Answer}
    {text : List Char} :
    result.map bare = .ok (.committed text) ↔ result = .ok (.committed text) := by
  cases result with
  | error e => exact iff_of_false nofun nofun
  | ok a => cases a <;> simp [bare, Except.map]

/-- What one sees of a session. -/
structure View where
  expr : Expr
  place : List Nat := []
  history : List (List Char) := []

namespace View

/-- The focused part of the expression. -/
def part (v : View) : Expr :=
  (v.expr.subtreeAt? v.place).getD v.expr

/-- The placement of a part that gives it a position among its siblings, on nodes without handles
that remember the nodes that list them. -/
def placement (around : Expr) (index position : Nat) (part : Expr) : Placement :=
  let record : Unit → Store.Record := fun _ => ⟨none, true⟩
  ⟨(around.withMoved index position).map record, position, part.map record⟩

/-- The placements of the focused part among its siblings. -/
def candidates (v : View) : List Placement :=
  match v.place.getLast?, v.expr.subtreeAt? v.place.dropLast with
  | some index, some around =>
    (List.range around.children.length).map fun position =>
      placement around index position v.part
  | _, _ => []

/-- The placement that gives the focused part a position. -/
def preview (v : View) (position : Int) : Except SessionError Placement :=
  match v.candidates with
  | [] => .error (.lookup .rootHasNoSiblings)
  | ps =>
    match elementAt? ps position with
    | some p => .ok p
    | none => .error (.lookup (.noPosition position (ps.length - 1)))

/-- Moves the focused part to a position among its siblings. -/
def moveTo (v : View) (position : Int) : Except SessionError View :=
  (v.preview position).map fun p =>
    { v with
      expr := Tree.replaceAt p.tree.erase v.expr v.place.dropLast
      place := v.place.dropLast ++ [p.position] }

/-- Adds the text of the expression to the history, and reads it again if that is wanted. -/
def commit (reparse : Bool) (v : View) : Except SessionError View :=
  let read := if reparse then (parse v.expr.flat).mapError .parse else .ok v.expr
  read.map fun expr => { expr, history := v.history ++ [v.expr.flat] }

/-- What a command answers and what is seen after it. -/
def step (reparse : Bool) (v : View) : Command → Except SessionError Answer × View
  | .select index =>
    match elementAt? v.part.children index with
    | some child => (.ok (.focused child.label), { v with place := v.place ++ [index.toNat] })
    | none =>
      (.error (.lookup (.noChildOfFocus v.part.kind v.part.children.length index)), v)
  | .selectPath path =>
    match v.expr.followFrom 0 path with
    | .ok found => (.ok (.focused found.label), { v with place := path.map Int.toNat })
    | .error e => (.error (.lookup e), v)
  | .reset => (.ok .reset, { v with place := [] })
  | .candidates => (.ok (.candidates v.candidates), v)
  | .preview position => ((v.preview position).map .candidate, v)
  | .moveTo position =>
    match v.moveTo position with
    | .ok moved => (.ok (.moved moved.expr.label), moved)
    | .error e => (.error e, v)
  | .commit =>
    match v.commit reparse with
    | .ok committed => (.ok (.committed v.expr.flat), committed)
    | .error e => (.error e, v)

variable {v w : View} {place : List Nat} {index : Nat} {around : Expr}

/-- A placement is the tree with the child moved. -/
private theorem erase_tree_placement (around : Expr) (index position : Nat) (part : Expr) :
    (placement around index position part).tree.erase = around.withMoved index position := by
  rw [placement, Tree.erase_map, Tree.erase_eq]

/-- The root can be put nowhere. -/
theorem candidates_of_place_eq_nil (h : v.place = []) : v.candidates = [] := by
  rw [candidates, h]
  rfl

/-- A preview is the candidate at the index. -/
theorem preview_of_candidates_ne_nil (h : v.candidates ≠ []) (position : Int) :
    v.preview position = match elementAt? v.candidates position with
      | some p => .ok p
      | none => .error (.lookup (.noPosition position (v.candidates.length - 1))) := by
  rw [preview]
  split
  · next hnil => exact absurd hnil h
  · rfl

/-- The candidates of a part that is the child of another one. -/
theorem candidates_concat (hplace : v.place = place ++ [index])
    (haround : v.expr.subtreeAt? place = some around) :
    v.candidates = (List.range around.children.length).map fun position =>
      placement around index position v.part := by
  rw [candidates, hplace, List.getLast?_concat, List.dropLast_concat, haround]

/-- A path to a place of the expression focuses the part there. -/
theorem step_selectPath {u : Expr} (hu : v.expr.subtreeAt? place = some u) (reparse : Bool) :
    v.step reparse (.selectPath (place.map Int.ofNat)) =
      (.ok (.focused u.label), { v with place }) := by
  rw [step, Tree.followFrom_natCast 0 hu]
  simp only [map_toNat_map_ofNat]

/-- A part that is the child of another one can be moved to every position there. -/
theorem moveTo_eq (hplace : v.place = place ++ [index])
    (haround : v.expr.subtreeAt? place = some around) {position : Nat}
    (hposition : position < around.children.length) :
    v.moveTo position = .ok
      { v with
        expr := Tree.replaceAt (around.withMoved index position) v.expr place
        place := place ++ [position] } := by
  let chosen := placement around index position v.part
  have hchosen : elementAt? v.candidates position = some chosen := by
    refine elementAt?_eq_some_iff.mpr ⟨position, rfl, ?_⟩
    rw [candidates_concat hplace haround, List.getElem?_map, List.getElem?_range hposition]
    rfl
  have hpreview : v.preview position = .ok chosen := by
    rw [preview]
    split
    · next hnone =>
      rw [hnone] at hchosen
      cases mem_of_elementAt?_eq_some hchosen
    · rw [hchosen]
  have hexpr : chosen.tree.erase = around.withMoved index position := erase_tree_placement ..
  have hdropLast : v.place.dropLast = place := by rw [hplace, List.dropLast_concat]
  rw [moveTo, hpreview, hdropLast]
  simp only [Except.map, hexpr]
  rfl

/-- A move to an index among the siblings succeeds. -/
theorem step_moveTo (hplace : v.place = place ++ [index])
    (haround : v.expr.subtreeAt? place = some around) {position : Nat}
    (hposition : position < around.children.length) (reparse : Bool) :
    ∃ answer, v.step reparse (.moveTo position) = (.ok answer,
      { v with
        expr := Tree.replaceAt (around.withMoved index position) v.expr place
        place := place ++ [position] }) := by
  rw [step, moveTo_eq hplace haround hposition]
  exact ⟨_, rfl⟩

/-- A part that has no placement at a position cannot be moved there. -/
theorem exists_moveTo_eq_error {position : Int} (h : elementAt? v.candidates position = none) :
    ∃ e, v.moveTo position = .error (.lookup e) := by
  rw [moveTo, preview]
  split
  · exact ⟨_, rfl⟩
  · rw [h]
    exact ⟨_, rfl⟩

/-- A move puts the children of the part around the focused one in another order. -/
theorem exists_of_moveTo {position : Int} (h : v.moveTo position = .ok w) :
    ∃ around index target, v.expr.subtreeAt? v.place.dropLast = some around ∧
      target < around.children.length ∧
      w.expr = Tree.replaceAt (around.withMoved index target) v.expr v.place.dropLast := by
  rw [moveTo, preview] at h
  split at h
  · cases h
  · next cs _ =>
    cases hchosen : elementAt? v.candidates position with
    | none =>
      rw [hchosen] at h
      cases h
    | some c =>
      rw [hchosen] at h
      obtain rfl := Except.ok.inj h
      have hlisted := mem_of_elementAt?_eq_some hchosen
      rw [candidates] at hlisted
      split at hlisted
      · next index around _ haround =>
        obtain ⟨target, htarget, rfl⟩ := List.mem_map.mp hlisted
        refine ⟨around, index, target, haround, List.mem_range.mp htarget, ?_⟩
        exact congrArg (Tree.replaceAt · v.expr v.place.dropLast) (erase_tree_placement ..)
      · cases hlisted

/-- A move rearranges the expression. -/
theorem rearranged_moveTo {position : Int} (h : v.moveTo position = .ok w) :
    v.expr.Rearranged w.expr := by
  obtain ⟨around, index, target, haround, htarget, hexpr⟩ := exists_of_moveTo h
  rw [hexpr]
  exact Tree.Rearranged.replaceAt haround (around.rearranged_withMoved index htarget)

/-- Only a commit writes the history. -/
theorem history_step_of_ne (v : View) (reparse : Bool) {c : Command} (hc : c ≠ .commit) :
    (v.step reparse c).2.history = v.history := by
  cases c with
  | select index =>
    rw [step]
    split <;> rfl
  | selectPath path =>
    rw [step]
    split <;> rfl
  | reset => rfl
  | candidates => rfl
  | preview position => rfl
  | moveTo position =>
    rw [step, moveTo]
    cases v.preview position <;> rfl
  | commit => exact absurd rfl hc

/-- A commit of a canonical expression keeps it, whether it reads the text or not. -/
private theorem commit_of_isCanonical (h : v.expr.IsCanonical) (reparse : Bool) :
    v.commit reparse = .ok { expr := v.expr, history := v.history ++ [v.expr.flat] } := by
  rw [commit, parse_flat h, Tree.erase_eq]
  cases reparse <;> rfl

/-- A commit of a canonical expression succeeds. -/
theorem step_commit (h : v.expr.IsCanonical) (reparse : Bool) :
    v.step reparse .commit = (.ok (.committed v.expr.flat),
      { expr := v.expr, history := v.history ++ [v.expr.flat] }) := by
  rw [step, commit_of_isCanonical h]

/-- Whether a commit reads its text again makes no difference on a canonical expression. -/
theorem step_eq_of_isCanonical (h : v.expr.IsCanonical) (reparse reparse' : Bool) (c : Command) :
    v.step reparse c = v.step reparse' c := by
  cases c with
  | commit => rw [step_commit h, step_commit h]
  | _ => rfl

/-- A command puts a canonical expression in another order at most. -/
theorem rearranged_step (h : v.expr.IsCanonical) (reparse : Bool) (c : Command) :
    v.expr.Rearranged (v.step reparse c).2.expr := by
  cases c with
  | select index =>
    rw [step]
    split <;> exact .refl _
  | selectPath path =>
    rw [step]
    split <;> exact .refl _
  | reset => exact .refl _
  | candidates => exact .refl _
  | preview position => exact .refl _
  | moveTo position =>
    rw [step]
    split
    · next moved hmoved => exact rearranged_moveTo hmoved
    · exact .refl _
  | commit =>
    rw [step_commit h]
    exact .refl _

end View

end Rearrange
