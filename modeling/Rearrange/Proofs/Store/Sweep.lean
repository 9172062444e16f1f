import Rearrange.Proofs.Store.Owns
import Rearrange.Store.Liveness

namespace Rearrange.Store

variable {s : Store}

private theorem getD_setIfInBounds (marked : Array Bool) (id other : Nat) :
    (marked.setIfInBounds id true).getD other false =
      (decide (other = id ∧ other < marked.size) || marked.getD other false) := by
  rw [Array.getD_eq_getD_getElem?, Array.getD_eq_getD_getElem?, Array.getElem?_setIfInBounds]
  by_cases hother : id = other
  · subst hother
    by_cases hid : id < marked.size <;> simp [hid]
  · simp [hother, Ne.symm hother]

/-- The marked nodes are those in the list and those marked before. -/
private theorem getD_foldl_setIfInBounds (marked : Array Bool) (ids : List Nat) (other : Nat) :
    (ids.foldl (fun marked id => marked.setIfInBounds id true) marked).getD other false =
      (decide (other ∈ ids ∧ other < marked.size) || marked.getD other false) := by
  induction ids generalizing marked with
  | nil => simp
  | cons id ids ih =>
    rw [List.foldl_cons, ih, getD_setIfInBounds, Array.size_setIfInBounds]
    by_cases hlt : other < marked.size
    · simp only [List.mem_cons, hlt, and_true]
      by_cases hother : other = id <;> simp [hother]
    · simp [hlt]

/-- The nodes marked as live are those that are reached. -/
private theorem getD_marks (s : Store) (roots : List NodeId) (id : Nat) :
    (s.marks roots).getD id false = decide (id ∈ s.reached roots ∧ id < s.size) := by
  have hunmarked : (Array.replicate s.size false).getD id false = false := by
    by_cases hid : id < s.size <;> simp [Array.getD_eq_getD_getElem?, hid]
  rw [marks, getD_foldl_setIfInBounds, hunmarked, Array.size_replicate, Bool.or_false]

/-- Sweeping makes a node forget a parent that is not reached. -/
theorem cell_sweep (s : Store) (roots : List NodeId) (id : NodeId) :
    (s.sweep roots).cell id =
      { s.cell id with
        parent := (s.parent id).filter fun p => (s.marks roots).getD p false } := by
  rw [parent, cell, cell, sweep, Array.getD_eq_getD_getElem?, Array.getD_eq_getD_getElem?,
    Array.getElem?_map]
  cases s.cells[id]? <;> rfl

@[simp] theorem handle_sweep (s : Store) (roots : List NodeId) (id : NodeId) :
    (s.sweep roots).handle id = s.handle id := by
  rw [handle, cell_sweep, handle]

@[simp] theorem content_sweep (s : Store) (roots : List NodeId) (id : NodeId) :
    ((s.sweep roots).cell id).content = (s.cell id).content := by
  rw [cell_sweep]

/-- A parent is remembered as long as it is reached. -/
theorem parent_sweep (s : Store) (roots : List NodeId) (id : NodeId) :
    (s.sweep roots).parent id =
      (s.parent id).filter fun p => decide (p ∈ s.reached roots ∧ p < s.size) := by
  rw [parent, cell_sweep]
  simp only [getD_marks]

theorem parent_sweep_eq_none {roots : List NodeId} {id : NodeId} (h : s.parent id = none) :
    (s.sweep roots).parent id = none := by
  rw [parent_sweep, h, Option.filter_none]

/-- A sweep leaves an owned tree owned if its top is in use. -/
theorem Owns.sweep {t : Tree NodeId} {roots : List NodeId} (h : s.Owns t) (htop : t.tag ∈ roots) :
    (s.sweep roots).Owns t := by
  have hreached : t.tags ⊆ s.reached roots := fun id hid => by
    refine List.mem_flatMap.mpr ⟨t.tag, htop, ?_⟩
    rwa [h.walk_eq]
  have hsize : s.size ≤ (s.sweep roots).size := Nat.le_of_eq (size_sweep s roots).symm
  refine ⟨h.holds.congr hsize fun id _ => content_sweep s roots id, h.nodup, ?_⟩
  intro id hid c hc
  rw [children, content_sweep] at hc
  rw [parent_sweep, h.linked id hid c hc]
  exact Option.filter_some_pos (decide_eq_true ⟨hreached hid, h.holds.lt_size hid⟩)

/-- A sweep leaves every node of an owned tree as it was if its top is in use and has no parent. -/
theorem Owns.cell_sweep_eq {t : Tree NodeId} {roots : List NodeId} (h : s.Owns t)
    (htop : t.tag ∈ roots) (hparent : s.parent t.tag = none) {id : NodeId} (hid : id ∈ t.tags) :
    (s.sweep roots).cell id = s.cell id := by
  have hkept : (s.sweep roots).parent id = s.parent id := by
    obtain rfl | hid := List.mem_cons.mp (h.holds.listed_perm.mem_iff.mpr hid)
    · rw [parent_sweep_eq_none hparent, hparent]
    · obtain ⟨x, hx, hid⟩ := List.mem_flatMap.mp hid
      have hlinked := (h.sweep htop).linked x hx id
      rw [children, content_sweep] at hlinked
      rw [hlinked hid, h.linked x hx id hid]
  rw [parent_sweep, parent] at hkept
  rw [cell_sweep, parent]
  simp only [getD_marks, hkept]

end Rearrange.Store
