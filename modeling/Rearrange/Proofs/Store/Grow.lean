import Rearrange.Proofs.Store.Graft
import Rearrange.Proofs.Store.Relink

namespace Rearrange.Store

/-- Everything that is in the first store is in the second one as it was. -/
structure Within (s s' : Store) : Prop where
  size_le : s.size ≤ s'.size
  cell_eq : ∀ id, id < s.size → s'.cell id = s.cell id

/-- The second store has grown out of the first one by trees. These are made of new nodes, have no
node in common, and stand by themselves; whatever was there is as it was. -/
structure Grows (s s' : Store) (ds : List (Tree NodeId)) : Prop extends Within s s' where
  owns : ∀ d ∈ ds, s'.Owns d
  parent_eq : ∀ d ∈ ds, s'.parent d.tag = none
  nodup : (ds.flatMap Tree.tags).Nodup
  fresh : ∀ id ∈ ds.flatMap Tree.tags, s.size ≤ id

variable {s s' s'' : Store} {t : Tree NodeId} {ds es : List (Tree NodeId)}

theorem Within.refl (s : Store) : s.Within s :=
  ⟨Nat.le_refl _, fun _ _ => rfl⟩

theorem Within.trans (h : s.Within s') (h' : s'.Within s'') : s.Within s'' :=
  ⟨Nat.le_trans h.size_le h'.size_le, fun id hid =>
    (h'.cell_eq id (Nat.lt_of_lt_of_le hid h.size_le)).trans (h.cell_eq id hid)⟩

theorem Within.handle_eq (h : s.Within s') {id : NodeId} (hid : id < s.size) :
    s'.handle id = s.handle id := by
  rw [handle, h.cell_eq id hid, handle]

theorem Within.parent_eq (h : s.Within s') {id : NodeId} (hid : id < s.size) :
    s'.parent id = s.parent id := by
  rw [parent, h.cell_eq id hid, parent]

/-- Trees stay while the store grows. -/
theorem Within.holds (h : s.Within s') (ht : s.Holds t) : s'.Holds t :=
  ht.congr h.size_le fun id hid => by rw [h.cell_eq id (ht.lt_size hid)]

/-- Trees that the store owns stay its own while it grows. -/
theorem Within.owns (h : s.Within s') (ht : s.Owns t) : s'.Owns t :=
  ht.congr h.size_le (fun id hid => by rw [h.cell_eq id (ht.holds.lt_size hid)])
    fun _ hid => h.parent_eq (ht.holds.lt_size (List.mem_of_mem_tail hid))

/-- A tree that was there has the handles that it had. -/
theorem Within.map_handle_eq (h : s.Within s') (ht : s.Holds t) :
    t.map s'.handle = t.map s.handle :=
  Tree.map_congr_left fun _ hid => h.handle_eq (ht.lt_size hid)

theorem within_push (s : Store) (c : Cell) : s.Within (s.push c) :=
  ⟨by rw [size_push]; exact Nat.le_succ _, fun _ hid => cell_push_of_lt hid⟩

/-- Dropping all new nodes gives back the store as it was. -/
theorem Within.upTo_eq (h : s.Within s') : s'.upTo s.size = s := by
  obtain ⟨hsize, hcell⟩ := h
  obtain ⟨cells⟩ := s
  obtain ⟨cells'⟩ := s'
  simp only [size] at hsize
  simp only [upTo, size, mk.injEq]
  refine Array.ext (by simp [hsize]) fun i _ hi => ?_
  have hsame := hcell i hi
  simp only [cell, Array.getD_eq_getD_getElem?] at hsame
  rw [Array.getElem?_eq_getElem hi, Array.getElem?_eq_getElem (Nat.lt_of_lt_of_le hi hsize)]
    at hsame
  simpa using hsame

theorem grows_nil (s : Store) : s.Grows s [] :=
  ⟨.refl s, nofun, nofun, List.nodup_nil, nofun⟩

/-- The nodes of trees that a store has grown by are new there and old to a store that has grown out
of it. -/
theorem Grows.append (h : s.Grows s' ds) (h' : s'.Grows s'' es) : s.Grows s'' (ds ++ es) := by
  refine ⟨h.toWithin.trans h'.toWithin, fun d hd => ?_, fun d hd => ?_, ?_, fun id hid => ?_⟩
  · obtain hd | hd := List.mem_append.mp hd
    · exact h'.toWithin.owns (h.owns d hd)
    · exact h'.owns d hd
  · obtain hd | hd := List.mem_append.mp hd
    · rw [h'.toWithin.parent_eq ((h.owns d hd).holds.lt_size d.tag_mem_tags), h.parent_eq d hd]
    · exact h'.parent_eq d hd
  · rw [List.flatMap_append]
    refine List.Nodup.append h.nodup h'.nodup fun id hid hnew => ?_
    obtain ⟨d, hd, hid⟩ := List.mem_flatMap.mp hid
    exact absurd ((h.owns d hd).holds.lt_size hid) (Nat.not_lt.mpr (h'.fresh id hnew))
  · rw [List.flatMap_append] at hid
    obtain hid | hid := List.mem_append.mp hid
    · exact h.fresh id hid
    · exact Nat.le_trans h.size_le (h'.fresh id hid)

/-- The order of the new trees does not matter. -/
theorem Grows.perm (h : s.Grows s' ds) (hperm : ds.Perm es) : s.Grows s' es := by
  have htags : (ds.flatMap Tree.tags).Perm (es.flatMap Tree.tags) := hperm.flatMap_right Tree.tags
  exact ⟨h.toWithin, fun d hd => h.owns d (hperm.mem_iff.mpr hd),
    fun d hd => h.parent_eq d (hperm.mem_iff.mpr hd), htags.nodup_iff.mp h.nodup,
    fun id hid => h.fresh id (htags.mem_iff.mpr hid)⟩

/-- A node that was there is no top of a new tree. -/
theorem Grows.notMem_map_tag (h : s.Grows s' ds) {id : NodeId} (hid : id < s.size) :
    id ∉ ds.map Tree.tag := by
  intro hmem
  obtain ⟨d, hd, rfl⟩ := List.mem_map.mp hmem
  have hge := h.fresh d.tag (List.mem_flatMap.mpr ⟨d, hd, d.tag_mem_tags⟩)
  exact absurd hid (Nat.not_lt.mpr hge)

/-- Giving new trees to a node as its children grafts them there. -/
theorem Grows.grafts_relink (h : s.Grows s' ds) {target : NodeId} (htarget : target < s.size) :
    s.Grafts (s'.relink target (ds.map Tree.tag)) target ds := by
  have hlt := Nat.lt_of_lt_of_le htarget h.size_le
  have hne : ∀ id ∈ ds.flatMap Tree.tags, id ≠ target := by
    rintro id hid rfl
    exact absurd htarget (Nat.not_lt.mpr (h.fresh id hid))
  constructor
  · rw [size_relink]
    exact h.size_le
  · intro id hid hother
    rw [cell_relink_of_notMem hother (h.notMem_map_tag hid), h.cell_eq id hid]
  · rw [content_relink_self _ hlt, h.cell_eq target htarget]
  · rw [handle_relink, h.toWithin.handle_eq htarget]
  · rw [parent_relink_of_notMem (h.notMem_map_tag htarget), h.toWithin.parent_eq htarget]
  · intro d hd
    refine (h.owns d hd).congr (Nat.le_of_eq (size_relink _ _ _).symm) (fun id hid => ?_)
      fun id hid => ?_
    · exact content_relink_of_ne _ (hne id (List.mem_flatMap.mpr ⟨d, hd, hid⟩))
    · exact parent_relink_of_notMem (notMem_map_tag_of_mem_tail h.nodup h.owns hd hid)
  · intro d hd
    exact parent_relink_of_mem (List.mem_map_of_mem hd) ((h.owns d hd).holds.lt_size d.tag_mem_tags)
  · exact h.nodup
  · exact h.fresh

private theorem handle_makeBranch (s : Store) (shape : Shape) (cs : List NodeId)
    (handle : Option Handle) {id : NodeId} (hid : id < s.size) :
    (s.makeBranch shape cs handle).2.handle id = s.handle id := by
  rw [makeBranch, handle_relink, Store.handle, cell_push_of_lt hid, Store.handle]

private theorem handle_makeBranch_size (s : Store) (shape : Shape) (cs : List NodeId)
    (handle : Option Handle) : (s.makeBranch shape cs handle).2.handle s.size = handle := by
  rw [makeBranch, handle_relink, Store.handle, cell_push_size]

/-- A branch has the handle that it is made with, above trees with the handles that they had. -/
theorem map_handle_makeBranch {ds : List (Tree NodeId)} (hds : ∀ d ∈ ds, s.Holds d) (shape : Shape)
    (cs : List NodeId) (handle : Option Handle) :
    (Tree.branch s.size shape ds).map (s.makeBranch shape cs handle).2.handle =
      .branch handle shape (ds.map (Tree.map s.handle)) := by
  rw [Tree.map_branch, handle_makeBranch_size]
  refine congrArg _ (List.map_congr_left fun d hd => Tree.map_congr_left fun id hid => ?_)
  exact handle_makeBranch _ _ _ _ ((hds d hd).lt_size hid)

/-- A branch that is made of new trees is a new tree. -/
theorem Grows.makeBranch (h : s.Grows s' ds) (shape : Shape) (handle : Option Handle) :
    s.Grows (s'.makeBranch shape (ds.map Tree.tag) handle).2 [.branch s'.size shape ds] := by
  let pushed := s'.push { content := .branch shape [], handle }
  have hpushed : s'.Within pushed := within_push s' _
  have hold : ∀ d ∈ ds, ∀ id ∈ d.tags, id < s'.size := fun d hd id hid =>
    (h.owns d hd).holds.lt_size hid
  -- The new top comes after all nodes of the trees below it.
  have htop : s'.size ∉ ds.flatMap Tree.tags := by
    intro hmem
    obtain ⟨d, hd, hid⟩ := List.mem_flatMap.mp hmem
    exact Nat.lt_irrefl _ (hold d hd _ hid)
  have hnodup : (Tree.branch s'.size shape ds).tags.Nodup := by
    rw [Tree.tags_branch, List.nodup_cons]
    exact ⟨htop, h.nodup⟩
  have htops : s'.size ∉ ds.map Tree.tag := by
    intro hmem
    obtain ⟨d, hd, htag⟩ := List.mem_map.mp hmem
    exact htop (List.mem_flatMap.mpr ⟨d, hd, htag ▸ d.tag_mem_tags⟩)
  have hkind : pushed.kind s'.size = .branch shape := by
    rw [Store.kind, cell_push_size, Content.kind]
  have hlt : s'.size < pushed.size := by
    rw [size_push]
    exact Nat.lt_succ_self _
  constructor
  · refine ⟨?_, fun id hid => ?_⟩
    · rw [Store.makeBranch, size_relink]
      exact Nat.le_trans h.size_le hpushed.size_le
    · have hid' := Nat.lt_of_lt_of_le hid h.size_le
      rw [Store.makeBranch, cell_relink_of_notMem (Nat.ne_of_lt hid') (h.notMem_map_tag hid),
        cell_push_of_lt hid', h.cell_eq id hid]
  · rw [List.forall_mem_singleton]
    exact owns_relink hlt hkind (fun d hd => hpushed.owns (h.owns d hd)) hnodup
  · rw [List.forall_mem_singleton, Store.makeBranch, Tree.tag, parent_relink_of_notMem htops,
      Store.parent, cell_push_size]
  · rw [List.flatMap_singleton]
    exact hnodup
  · intro id hid
    rw [List.flatMap_singleton, Tree.tags_branch, List.mem_cons] at hid
    obtain rfl | hid := hid
    · exact h.size_le
    · exact h.fresh id hid

end Rearrange.Store
