import Rearrange.Proofs.Store.Owns
import Rearrange.Proofs.Tree.Place

namespace Rearrange.Store

/-- What the second store differs in from the first: a node lists the tops of new trees as its
children, and the store owns these trees below the node. -/
structure Grafts (s s' : Store) (target : NodeId) (ds : List (Tree NodeId)) : Prop where
  size_le : s.size ≤ s'.size
  cell_eq : ∀ id, id < s.size → id ≠ target → s'.cell id = s.cell id
  content_eq : (s'.cell target).content = (s.cell target).content.withChildren (ds.map Tree.tag)
  handle_eq : s'.handle target = s.handle target
  parent_eq : s'.parent target = s.parent target
  owns : ∀ d ∈ ds, s'.Owns d
  linked : ∀ d ∈ ds, s'.parent d.tag = some target
  nodup : (ds.flatMap Tree.tags).Nodup
  fresh : ∀ id ∈ ds.flatMap Tree.tags, s.size ≤ id

variable {s s' : Store} {target : NodeId} {t : Tree NodeId} {ds : List (Tree NodeId)}

theorem Grafts.handle_of_lt (h : s.Grafts s' target ds) {id : NodeId} (hid : id < s.size) :
    s'.handle id = s.handle id := by
  by_cases heq : id = target
  · subst heq
    exact h.handle_eq
  · rw [handle, h.cell_eq id hid heq, handle]

theorem Grafts.parent_of_lt (h : s.Grafts s' target ds) {id : NodeId} (hid : id < s.size) :
    s'.parent id = s.parent id := by
  by_cases heq : id = target
  · subst heq
    exact h.parent_eq
  · rw [parent, h.cell_eq id hid heq, parent]

/-- A tree in the store is there afterwards with the new children in it. -/
theorem Grafts.holds (h : s.Grafts s' target ds) (ht : s.Holds t) :
    s'.Holds (t.graft target ds) := by
  induction ht with
  | @literal id l hid hcontent =>
    rw [Tree.graft_literal]
    refine .literal (Nat.lt_of_lt_of_le hid h.size_le) ?_
    by_cases heq : id = target
    · subst heq
      rw [h.content_eq, hcontent, Content.withChildren]
    · rw [h.cell_eq id hid heq, hcontent]
  | @branch id shape cs hid hcontent hcs ih =>
    have hlt := Nat.lt_of_lt_of_le hid h.size_le
    by_cases heq : id = target
    · subst heq
      rw [Tree.graft_branch_self]
      refine .branch hlt ?_ fun d hd => (h.owns d hd).holds
      rw [h.content_eq, hcontent, Content.withChildren]
    · rw [Tree.graft_branch_of_ne heq]
      refine .branch hlt ?_ (List.forall_mem_map.mpr ih)
      rw [h.cell_eq id hid heq, hcontent, List.map_map]
      simp [Function.comp_def]

/-- A store that owns a tree owns what a graft makes of it. -/
theorem Grafts.owns_graft (h : s.Grafts s' target ds) (ht : s.Owns t) :
    s'.Owns (t.graft target ds) := by
  have hnew : t.tags.Disjoint (ds.flatMap Tree.tags) := fun id hid hds =>
    absurd (ht.holds.lt_size hid) (Nat.not_lt.mpr (h.fresh id hds))
  refine ⟨h.holds ht.holds, Tree.nodup_tags_graft ht.nodup h.nodup hnew, fun id hid c hc => ?_⟩
  obtain hid | ⟨_, hid⟩ := Tree.mem_tags_graft hid
  · have hlt := ht.holds.lt_size hid
    by_cases heq : id = target
    · subst heq
      rw [children, h.content_eq] at hc
      cases hcontent : (s.cell id).content with
      | literal l =>
        rw [hcontent] at hc
        cases hc
      | branch shape cs =>
        rw [hcontent] at hc
        obtain ⟨d, hd, rfl⟩ := List.mem_map.mp hc
        exact h.linked d hd
    · rw [children, h.cell_eq id hlt heq] at hc
      rw [h.parent_of_lt (ht.holds.lt_size (ht.holds.mem_of_mem_children hid hc))]
      exact ht.linked id hid c hc
  · obtain ⟨d, hd, hid⟩ := List.mem_flatMap.mp hid
    exact (h.owns d hd).linked id hid c hc

/-- The labels after a graft of trees that show the same labels as other trees before. -/
theorem Grafts.map_handle_graft (h : s.Grafts s' target ds) (ht : s.Owns t) {place : List Nat}
    {shape : Shape} {cs : List (Tree NodeId)}
    (hplace : t.subtreeAt? place = some (.branch target shape cs)) {es : List (Tree NodeId)}
    (hlabels : ds.map (Tree.map s'.handle) = es.map (Tree.map s.handle)) :
    (t.graft target ds).map s'.handle =
      Tree.replaceAt ((Tree.branch target shape es).map s.handle) (t.map s.handle) place := by
  have hsame : t.map s'.handle = t.map s.handle :=
    Tree.map_congr_left fun id hid => h.handle_of_lt (ht.holds.lt_size hid)
  rw [Tree.graft_eq_replaceAt ht.nodup hplace, Tree.map_replaceAt, hsame, Tree.map_branch,
    Tree.map_branch, hlabels, h.handle_eq]

end Rearrange.Store
