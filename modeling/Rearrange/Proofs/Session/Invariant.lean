import Rearrange.Proofs.Parse.Grammar
import Rearrange.Proofs.Placement
import Rearrange.Proofs.Store.Flatten
import Rearrange.Proofs.Store.Number
import Rearrange.Proofs.Store.Sweep
import Rearrange.Session.Basic

namespace Rearrange

namespace Session

/-- What holds of a session about a tree at any time. -/
structure Invariant (s : Session) (t : Tree NodeId) : Prop where
  tag_eq : t.tag = s.root
  owns : s.store.Owns t
  parent_root : s.store.parent s.root = none
  focus_mem : s.focus ∈ t.tags
  handles_nodup : (t.map s.store.handle).tags.Nodup
  handles_lt : ∀ h ∈ (t.map s.store.handle).tags, ∃ n : Int,
    h = some (.integer n) ∧ n < s.nextHandle
  isFlat : t.isFlat = true

variable {s : Session} {t : Tree NodeId}

/-- A walk from the root meets the nodes of the tree in order. -/
theorem Invariant.walk_root (h : s.Invariant t) : s.store.walk s.root = t.tags := by
  rw [← h.tag_eq, h.owns.walk_eq]

/-- The expression of the session is the tree without its nodes. -/
theorem Invariant.expr_eq (h : s.Invariant t) : s.expr = t.erase := by
  rw [expr, ← h.tag_eq, h.owns.expr_eq]

theorem Invariant.root_mem (h : s.Invariant t) : s.root ∈ t.tags :=
  h.tag_eq ▸ t.tag_mem_tags

/-- No two nodes have the same handle. -/
theorem Invariant.eq_of_handle_eq (h : s.Invariant t) {x y : NodeId} (hx : x ∈ t.tags)
    (hy : y ∈ t.tags) (heq : s.store.handle x = s.store.handle y) : x = y := by
  have hnodup := h.handles_nodup
  rw [Tree.tags_map] at hnodup
  exact List.inj_on_of_nodup_map hnodup hx hy heq

/-- The invariant does not depend on the history, nor on whether commits read their text again, and
the focus may move within the tree. -/
theorem Invariant.refocus (h : s.Invariant t) {focus : NodeId} (hfocus : focus ∈ t.tags)
    (history : List (List Char)) (reparse : Bool) :
    Invariant { s with focus, history, reparse } t :=
  { h with focus_mem := hfocus }

/-- The invariant does not depend on what else there is in the store. -/
theorem Invariant.within (h : s.Invariant t) {store : Store} (hwithin : s.store.Within store) :
    Invariant { s with store } t := by
  have hhandles : t.map store.handle = t.map s.store.handle :=
    hwithin.map_handle_eq h.owns.holds
  constructor
  · exact h.tag_eq
  · exact hwithin.owns h.owns
  · exact (hwithin.parent_eq (h.owns.holds.lt_size h.root_mem)).trans h.parent_root
  · exact h.focus_mem
  · exact hhandles ▸ h.handles_nodup
  · exact hhandles ▸ h.handles_lt
  · exact h.isFlat

/-- Loading the top of a flat tree makes it the tree of the session. -/
theorem invariant_load (s : Session) (howns : s.store.Owns t)
    (hparent : s.store.parent t.tag = none) (hflat : t.isFlat = true) :
    (s.load t.tag).Invariant t := by
  have hlt : ∀ id ∈ t.tags, id < s.store.size := fun id hid => howns.holds.lt_size hid
  have hhandles : (t.map (s.load t.tag).store.handle).tags =
      t.tags.map (s.store.numberAll s.nextHandle t.tags).handle := by
    rw [Tree.tags_map, load, Store.number, howns.walk_eq]
  constructor
  · rfl
  · exact howns.number t.tag s.nextHandle
  · exact (Store.parent_numberAll _ _ _ _).trans hparent
  · exact t.tag_mem_tags
  · rw [hhandles]
    exact Store.nodup_map_handle_numberAll _ howns.nodup hlt
  · intro h hh
    rw [hhandles] at hh
    obtain ⟨id, hid, rfl⟩ := List.mem_map.mp hh
    obtain ⟨n, hn, -, hbound⟩ :=
      Store.exists_handle_numberAll s.nextHandle howns.nodup hlt hid
    have hnext : (s.load t.tag).nextHandle = s.nextHandle + t.tags.length := by
      rw [load, howns.walk_eq]
    refine ⟨n, hn, ?_⟩
    rw [hnext]
    omega
  · exact hflat

/-- A planted tree that is flat can be loaded. -/
theorem exists_invariant_load_plant (s : Session) {e : Expr} (hflat : e.isFlat = true) :
    ∃ t, (load { s with store := s.store.plant (e.map fun _ => none) } s.store.size).Invariant t ∧
      t.erase = e := by
  let planted : Tree (Option Handle) := e.map fun _ => none
  have herase : (planted.numbered s.store.size).erase = e := by
    rw [Store.erase_numbered_size, Tree.erase_map, Tree.erase_eq]
  refine ⟨planted.numbered s.store.size, ?_, herase⟩
  have hload := invariant_load { s with store := s.store.plant planted }
    (Store.owns_plant s.store planted)
  rw [Tree.tag_numbered] at hload
  apply hload (Store.parent_plant s.store planted)
  rw [← Tree.isFlat_map, ← Tree.erase, herase]
  exact hflat

/-- A session about an expression in a store is loaded with a flattened copy of it. -/
theorem ofNode_eq (store : Store) (source : NodeId) (reparse : Bool) :
    ofNode store source reparse = load
      { store := (store.plant ((store.labelled source).map fun _ => none)).flatten store.size
        root := store.size, focus := store.size, reparse } store.size := by
  rw [ofNode, Store.copy_eq]

theorem reparse_ofNode (store : Store) (source : NodeId) (reparse : Bool) :
    (ofNode store source reparse).reparse = reparse := by
  rw [ofNode_eq]
  rfl

/-- A session about an expression in a store is about a flattened copy of it. -/
theorem invariant_ofNode (store : Store) (source : NodeId) (reparse : Bool) :
    let copied : Tree (Option Handle) := (store.labelled source).map fun _ => none
    (ofNode store source reparse).Invariant (copied.numbered store.size).flatten := by
  intro copied
  have hflattens := Store.flattens_flatten (Store.owns_plant store copied)
  rw [Tree.tag_numbered] at hflattens
  have hparent := hflattens.parent_eq
  rw [Tree.tag_numbered, Store.parent_plant] at hparent
  have hload := invariant_load
    { store := (store.plant copied).flatten store.size, root := store.size, focus := store.size,
      reparse : Session } hflattens.owns
  rw [Tree.tag_flatten, Tree.tag_numbered] at hload
  rw [ofNode_eq]
  exact hload hparent (Tree.isFlat_flatten _)

/-- A session that starts from a node is about a tree. -/
theorem exists_invariant_ofNode (store : Store) (source : NodeId) (reparse : Bool) :
    ∃ t, (ofNode store source reparse).Invariant t :=
  ⟨_, invariant_ofNode store source reparse⟩

/-- A session about a flat expression in a store is about this expression. -/
theorem exists_invariant_ofNode_of_isFlat {store : Store} {source : NodeId}
    (hflat : (store.expr source).isFlat = true) (reparse : Bool) :
    ∃ t, (ofNode store source reparse).Invariant t ∧ t.erase = store.expr source := by
  let copied : Tree (Option Handle) := (store.labelled source).map fun _ => none
  have herase : (copied.numbered store.size).erase = store.expr source := by
    rw [Store.erase_numbered_size, Tree.erase_map, Store.labelled, Tree.erase_map, Store.expr]
  refine ⟨_, invariant_ofNode store source reparse, ?_⟩
  rw [Tree.flatten_eq_self, herase]
  rwa [← Tree.isFlat_map, ← Tree.erase, herase]

/-- A session about a text is about the expression that the text is read as. -/
theorem exists_invariant_ofText {text : List Char} {reparse : Bool}
    (h : ofText text reparse = .ok s) :
    ∃ t, s.Invariant t ∧ parse text = .ok t.erase ∧ t.IsCanonical := by
  cases hparse : parse text with
  | error e =>
    rw [ofText, hparse] at h
    cases h
  | ok e =>
    rw [ofText, hparse] at h
    obtain rfl := Except.ok.inj h
    have hcanonical := (parse_eq_ok_iff.mp hparse).1
    obtain ⟨t, ht, rfl⟩ := exists_invariant_load_plant
      { store := Store.empty, root := 0, focus := 0, reparse : Session } hcanonical.isFlat
    exact ⟨t, ht, rfl, Tree.isCanonical_erase_iff.mp hcanonical⟩

end Session

end Rearrange
