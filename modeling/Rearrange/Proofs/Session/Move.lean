import Rearrange.Proofs.Placement
import Rearrange.Proofs.Session.Invariant

namespace Rearrange

/-- A candidate stands in a store for the placement of a child of a node at a position: the tree
made for it has the labels of the placement, and the moved child is the one at the position. -/
structure Candidate.Places (c : Candidate) (s : Store) (p : Tree NodeId) (source target : Nat) :
    Prop where
  position_eq : c.position = target
  lt_length : target < p.children.length
  exists_holds : ∃ d, s.Holds d ∧ d.tag = c.tree ∧
    d.map s.handle = (p.map s.handle).withMoved source target
  getElem?_moved : (s.children c.tree)[target]? = some c.moved

/-- The candidates that are made stand for the placements in their order. -/
theorem Store.MakesCandidates.places {s s' : Store} {p f : Tree NodeId} {cs : List Candidate}
    {made : List (Tree NodeId)} {source target : Nat} {c : Candidate}
    (h : s.MakesCandidates s' p source f cs made) (hp : s.Holds p)
    (hf : p.children[source]? = some f) (hc : cs[target]? = some c) :
    c.Places s' p source target := by
  obtain ⟨d, hd, htag⟩ := h.exists_made hc
  refine ⟨h.position_eq target c hc, ?_, ⟨d, ?_, htag, ?_⟩, h.getElem?_moved target c hc⟩
  · rw [← h.length_candidates]
    exact (List.getElem?_eq_some_iff.mp hc).1
  · exact (h.owns d (List.mem_of_getElem? hd)).holds
  · rw [h.map_handle_eq hf hd, h.toWithin.map_handle_eq hp]

namespace Session

variable {s : Session} {t : Tree NodeId}

/-- A graft keeps the invariant if it rearranges the labels, whatever node of the tree that comes of
it is focused. -/
theorem Invariant.graft (h : s.Invariant t) {store : Store} {target : NodeId}
    {ds : List (Tree NodeId)} (hgrafts : s.store.Grafts store target ds)
    (hrearranged : (t.map s.store.handle).Rearranged ((t.graft target ds).map store.handle))
    {focus : NodeId} (hfocus : focus ∈ (t.graft target ds).tags) :
    Invariant { s with store, focus } (t.graft target ds) := by
  have hhandles := hrearranged.tags_perm
  constructor
  · rw [Tree.tag_graft]
    exact h.tag_eq
  · exact hgrafts.owns_graft h.owns
  · exact (hgrafts.parent_of_lt (h.owns.holds.lt_size h.root_mem)).trans h.parent_root
  · exact hfocus
  · exact hhandles.nodup_iff.mp h.handles_nodup
  · exact fun handle hmem => h.handles_lt handle (hhandles.mem_iff.mpr hmem)
  · have hflat := hrearranged.isFlat (by rw [Tree.isFlat_map, h.isFlat])
    rwa [Tree.isFlat_map] at hflat

/-- Every node below another one is found there by its handle. -/
theorem Invariant.find?_handle (h : s.Invariant t) {place : List Nat} {p : Tree NodeId}
    (hp : t.subtreeAt? place = some p) {id : NodeId} (hid : id ∈ p.tags) :
    s.store.find? p.tag (s.store.handle id) = some id := by
  have howns := h.owns.subtreeAt? hp
  have hsubset := Tree.tags_subset_of_subtreeAt? hp
  apply Store.find?_handle
  · rwa [howns.walk_eq]
  · rw [howns.walk_eq]
    exact howns.nodup.map_on fun x hx y hy heq =>
      h.eq_of_handle_eq (hsubset hx) (hsubset hy) heq
  · intro x hx
    rw [howns.walk_eq] at hx
    have hmem : s.store.handle x ∈ (t.map s.store.handle).tags := by
      rw [Tree.tags_map]
      exact List.mem_map_of_mem (hsubset hx)
    obtain ⟨n, hn, -⟩ := h.handles_lt _ hmem
    exact ⟨n, hn⟩

/-- A placement of a node of the tree can be spliced into it. The labels are then those of the
placement, and the handle of its moved child is found at the child that stands at its position. -/
theorem Invariant.splice (h : s.Invariant t) {place : List Nat} {p : Tree NodeId}
    (hp : t.subtreeAt? place = some p) {source target : Nat} {c : Candidate}
    (hc : c.Places s.store p source target) :
    let o := s.store.splice p.tag c.tree
    ∃ t' p' d, o.result = .ok p.tag ∧
      Invariant { s with store := o.store, focus := d.tag } t' ∧
      t'.map o.store.handle = Tree.replaceAt ((p.map s.store.handle).withMoved source target)
        (t.map s.store.handle) place ∧
      (t'.subtreeAt? place = some p' ∧ p'.tag = p.tag) ∧
      t'.subtreeAt? (place ++ [target]) = some d ∧
      o.store.find? p.tag (o.store.handle c.moved) = some d.tag := by
  intro o
  obtain ⟨u, hu, htree, hshown⟩ := hc.exists_holds
  obtain ⟨ds, p', hresult, hgrafts, hplaced, htag, hplacement, hlabels⟩ :=
    h.owns.splice_spec hp hu hshown hc.lt_length
  rw [htree] at hresult hgrafts hplacement hlabels
  have hlength : target < p'.children.length := by
    have hchildren := congrArg (fun u => u.children.length) hplacement
    simp only [Tree.children_map, Tree.children_withMoved, List.length_map, ← map_moveElement,
      (moveElement_perm source hc.lt_length).length_eq] at hchildren
    exact hchildren ▸ hc.lt_length
  obtain ⟨d, hd⟩ : ∃ d, p'.children[target]? = some d := ⟨_, List.getElem?_eq_getElem hlength⟩
  have hmoved : (t.graft p.tag ds).subtreeAt? (place ++ [target]) = some d := by
    rw [Tree.subtreeAt?_concat hplaced, hd]
  have hrearranged : (t.map s.store.handle).Rearranged ((t.graft p.tag ds).map o.store.handle) := by
    rw [hlabels]
    apply Tree.Rearranged.replaceAt (Tree.subtreeAt?_map_eq_some s.store.handle hp)
    apply Tree.rearranged_withMoved
    rw [Tree.children_map, List.length_map]
    exact hc.lt_length
  have hinvariant := h.graft hgrafts hrearranged
    (Tree.tags_subset_of_subtreeAt? hmoved d.tag_mem_tags)
  -- The new children have the labels of those of the candidate, so the moved child there carries
  -- the handle of the node that stands at its position now.
  have hhandle : o.store.handle c.moved = o.store.handle d.tag := by
    have hget := hc.getElem?_moved
    rw [← htree, hu.children_tag, List.getElem?_map, Option.map_eq_some_iff] at hget
    obtain ⟨e, he, hmoved⟩ := hget
    have hsame := congrArg (fun v => v.children[target]?) (hplacement.trans hshown.symm)
    simp only [Tree.children_map, List.getElem?_map, hd, he, Option.map_some] at hsame
    have htags := congrArg Tree.tag (Option.some.inj hsame)
    rw [Tree.tag_map, Tree.tag_map, hmoved] at htags
    have hlt := hmoved ▸ (hu.of_mem_children (List.mem_of_getElem? he)).lt_size e.tag_mem_tags
    exact (hgrafts.handle_of_lt hlt).trans htags.symm
  have hbelow : d.tag ∈ p'.tags := by
    have hchild : p'.subtreeAt? [target] = some d :=
      Tree.subtreeAt?_cons_eq_some_iff.mpr ⟨d, hd, d.subtreeAt?_nil⟩
    exact Tree.tags_subset_of_subtreeAt? hchild d.tag_mem_tags
  have hfound := hinvariant.find?_handle hplaced hbelow
  rw [htag, ← hhandle] at hfound
  exact ⟨_, p', d, hresult, hinvariant, hlabels, ⟨hplaced, htag⟩, hmoved, hfound⟩

/-- Placing a candidate succeeds and focuses the child at its position. The node that is placed
into stays, and so do the history and the next handle. -/
theorem Invariant.place (h : s.Invariant t) {place : List Nat} {p : Tree NodeId}
    (hp : t.subtreeAt? place = some p) {source target : Nat} {c : Candidate}
    (hc : c.Places s.store p source target) :
    let o := s.place p.tag c
    (o.result = .ok () ∧ o.notes = [.moved target o.session.text]) ∧
      (o.session.root = s.root ∧ o.session.history = s.history ∧
        o.session.nextHandle = s.nextHandle ∧ o.session.reparse = s.reparse) ∧
      ∃ t' p' d, o.session.Invariant t' ∧
        t'.map o.session.store.handle = Tree.replaceAt
          ((p.map s.store.handle).withMoved source target) (t.map s.store.handle) place ∧
        (t'.subtreeAt? place = some p' ∧ p'.tag = p.tag) ∧
        t'.subtreeAt? (place ++ [target]) = some d ∧ d.tag = o.session.focus := by
  intro o
  obtain ⟨t', p', d, hresult, hinvariant, hlabels, hp', hd, hfound⟩ := h.splice hp hc
  let placed : Session := { s with store := (s.store.splice p.tag c.tree).store, focus := d.tag }
  have hplaced : o = ⟨.ok (), placed, [.moved target placed.text]⟩ := by
    simp only [o, Session.place, hresult, hfound, hc.position_eq, placed]
  rw [hplaced]
  exact ⟨⟨rfl, rfl⟩, ⟨rfl, rfl, rfl, rfl⟩, t', p', d, hinvariant, hlabels, hp', hd, rfl⟩

end Session

end Rearrange
