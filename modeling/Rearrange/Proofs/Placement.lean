import Rearrange.Proofs.Placement.Made
import Rearrange.Proofs.Store.Graft

namespace Rearrange

namespace Store

variable {s : Store}

/-- The children of a node are expressions of the store in the order of the tree. -/
theorem Holds.map_expr_children {t : Tree NodeId} (h : s.Holds t) :
    (s.children t.tag).map s.expr = t.children.map Tree.erase := by
  rw [h.children_tag, List.map_map]
  exact List.map_congr_left fun c hc => (h.of_mem_children hc).expr_eq

/-- Only a placement that has the kind of the node and, up to order, its children is spliced. -/
theorem result_splice_eq_ok {target placement id : NodeId}
    (h : (s.splice target placement).result = .ok id) :
    id = target ∧ s.kind target = s.kind placement ∧
      ((s.children target).map s.expr).Perm ((s.children placement).map s.expr) := by
  obtain rfl : target = id := by
    rw [splice_eq] at h
    split at h
    · cases h
    · split at h
      · exact Except.ok.inj h
      · cases h
  exact ⟨rfl, result_splice_eq_ok_iff.mp h⟩

/-- A placement that is refused leaves the store as it is. -/
theorem store_splice_of_error {target placement : NodeId} {e : SpliceError}
    (h : (s.splice target placement).result = .error e) :
        (s.splice target placement).store = s := by
  rw [splice_eq] at h ⊢
  split at h
  · next hkind => rw [if_pos hkind]
  · next hkind =>
    rw [if_neg hkind]
    split at h
    · cases h
    · next hperm => rw [if_neg hperm]

/-- A placement that is spliced into a node is copied and grafted there. -/
theorem Holds.exists_grafts_splice {c : Tree NodeId} (hc : s.Holds c) {target id : NodeId}
    (htarget : target < s.size) (h : (s.splice target c.tag).result = .ok id) :
    ∃ ds, s.Grafts (s.splice target c.tag).store target ds ∧
      ds.map (Tree.map (s.splice target c.tag).store.handle) =
        c.children.map (Tree.map s.handle) := by
  obtain ⟨-, hkind, hperm⟩ := result_splice_eq_ok h
  obtain ⟨ds, htops, hgrows, hlabels⟩ := exists_grows_copyAll fun d hd => hc.of_mem_children hd
  have hstore : (s.splice target c.tag).store =
      (s.copyAll (c.children.map Tree.tag)).2.relink target (ds.map Tree.tag) := by
    rw [splice_eq, if_neg (not_not_intro hkind), if_pos hperm, hc.children_tag, htops]
  rw [hstore]
  refine ⟨ds, hgrows.grafts_relink htarget, ?_⟩
  rw [← hlabels]
  exact List.map_congr_left fun d _ => Tree.map_congr_left fun id _ => handle_relink _ _ _ id

/-- A placement of a node of an owned tree can be spliced into the node, which grafts copies of the
children in the order of the placement. -/
theorem Owns.exists_splice {p c : Tree NodeId} (h : s.Owns p) (hc : s.Holds c)
    {source target : Nat} (hlabels : c.map s.handle = (p.map s.handle).withMoved source target)
    (htarget : target < p.children.length) :
    ∃ ds, (s.splice p.tag c.tag).result = .ok p.tag ∧
      s.Grafts (s.splice p.tag c.tag).store p.tag ds ∧
      ds.map (Tree.map (s.splice p.tag c.tag).store.handle) =
        (moveElement p.children source target).map (Tree.map s.handle) := by
  have hchildren : c.children.map (Tree.map s.handle) =
      (moveElement p.children source target).map (Tree.map s.handle) := by
    rw [← Tree.children_map, hlabels, Tree.children_withMoved, Tree.children_map, map_moveElement]
  have hkind : s.kind p.tag = s.kind c.tag := by
    rw [h.holds.kind_eq, hc.kind_eq, ← Tree.kind_map s.handle c, hlabels, Tree.kind_withMoved,
      Tree.kind_map]
  have hperm : ((s.children p.tag).map s.expr).Perm ((s.children c.tag).map s.expr) := by
    have hexprs := congrArg (List.map Tree.erase) hchildren
    simp only [List.map_map, Function.comp_def, Tree.erase_map] at hexprs
    rw [h.holds.map_expr_children, hc.map_expr_children, hexprs]
    exact ((moveElement_perm source htarget).map _).symm
  have hresult := result_splice_eq_ok_iff.mpr ⟨hkind, hperm⟩
  obtain ⟨ds, hgrafts, hcopies⟩ :=
    hc.exists_grafts_splice (h.holds.lt_size p.tag_mem_tags) hresult
  exact ⟨ds, hresult, hgrafts, hcopies.trans hchildren⟩

/-- What splicing a placement of a node somewhere in an owned tree makes of the tree. -/
theorem Owns.splice_spec {t p c : Tree NodeId} {place : List Nat} (h : s.Owns t)
    (hp : t.subtreeAt? place = some p) (hc : s.Holds c) {source target : Nat}
    (hlabels : c.map s.handle = (p.map s.handle).withMoved source target)
    (htarget : target < p.children.length) :
    let o := s.splice p.tag c.tag
    ∃ ds p', o.result = .ok p.tag ∧ s.Grafts o.store p.tag ds ∧
      (t.graft p.tag ds).subtreeAt? place = some p' ∧ p'.tag = p.tag ∧
      p'.map o.store.handle = (p.map s.handle).withMoved source target ∧
      (t.graft p.tag ds).map o.store.handle =
        Tree.replaceAt ((p.map s.handle).withMoved source target) (t.map s.handle) place := by
  intro o
  obtain ⟨ds, hresult, hgrafts, hcopies⟩ := (h.subtreeAt? hp).exists_splice hc hlabels htarget
  cases p with
  | literal id l => cases htarget
  | branch id shape cs =>
    rw [Tree.tag] at hgrafts
    rw [Tree.children] at hcopies
    have hplaced : (t.graft id ds).subtreeAt? place = some (.branch id shape ds) := by
      rw [Tree.graft_eq_replaceAt h.nodup hp]
      exact Tree.subtreeAt?_replaceAt hp _
    have hlabelled := hgrafts.map_handle_graft h hp hcopies
    have hplacement : (Tree.branch id shape (moveElement cs source target)).map s.handle =
        ((Tree.branch id shape cs).map s.handle).withMoved source target := by
      rw [← Tree.map_withMoved, Tree.withMoved]
    refine ⟨ds, .branch id shape ds, hresult, hgrafts, hplaced, rfl, ?_, ?_⟩
    · have hhandle : o.store.handle id = s.handle id := hgrafts.handle_eq
      rw [← hplacement, Tree.map_branch, Tree.map_branch, hhandle]
      exact congrArg _ hcopies
    · rw [← hplacement]
      exact hlabelled

/-- A node is found by its handle where all handles are numbers and no two are the same. -/
theorem find?_handle {id found : NodeId} (hmem : found ∈ s.walk id)
    (hnodup : ((s.walk id).map s.handle).Nodup)
    (hnumbers : ∀ x ∈ s.walk id, ∃ n : Int, s.handle x = some (.integer n)) :
    s.find? id (s.handle found) = some found := by
  obtain ⟨n, hn⟩ := hnumbers found hmem
  rw [hn, find?]
  cases hfirst : (s.walk id).find? fun x => (s.handle x).any (·.same (.integer n)) with
  | none =>
    have hsame := List.find?_eq_none.mp hfirst found hmem
    simp [hn, Datum.same] at hsame
  | some first =>
    have hlisted := List.mem_of_find?_eq_some hfirst
    obtain ⟨m, hm⟩ := hnumbers first hlisted
    have hsame := List.find?_some hfirst
    obtain rfl : m = n := by simpa [hm, Datum.same] using hsame
    rw [List.inj_on_of_nodup_map hnodup hlisted hmem (hm.trans hn.symm)]

end Store

end Rearrange
