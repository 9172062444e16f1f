import Mathlib.Data.List.Induction
import Rearrange.Proofs.Store.Owns
import Rearrange.Proofs.Tree.Place

namespace Rearrange

namespace Tree

variable {α : Type}

/-- No place is longer than the tree is high. -/
theorem length_le_height {t u : Tree α} {place : List Nat} (h : t.subtreeAt? place = some u) :
    place.length ≤ t.height := by
  induction place generalizing t with
  | nil => exact Nat.zero_le _
  | cons i place ih =>
    obtain ⟨c, hget, hc⟩ := subtreeAt?_cons_eq_some_iff.mp h
    cases t with
    | literal a l => cases hget
    | branch a s cs =>
      exact Nat.lt_of_le_of_lt (ih hc) (height_lt_of_mem (List.mem_of_getElem? hget))

/-- Children of a tree without repeated nodes have different tops. -/
theorem nodup_map_tag_children {t : Tree α} (h : t.tags.Nodup) :
    (t.children.map tag).Nodup := by
  cases t with
  | literal a l => exact List.nodup_nil
  | branch a s cs =>
    rw [tags_branch, List.nodup_cons, List.nodup_flatMap] at h
    refine List.pairwise_map.mpr (h.2.2.imp fun {c d} hdisjoint heq => ?_)
    exact hdisjoint c.tag_mem_tags (heq ▸ d.tag_mem_tags)

end Tree

namespace Store

variable {s : Store} {t u c : Tree NodeId} {place : List Nat} {i : Nat}

/-- A subtree of a tree in the store is in the store. -/
theorem Holds.subtreeAt? (h : s.Holds t) (hu : t.subtreeAt? place = some u) : s.Holds u := by
  induction place generalizing t with
  | nil =>
    obtain rfl := Option.some.inj hu
    exact h
  | cons i place ih =>
    obtain ⟨c, hget, hc⟩ := Tree.subtreeAt?_cons_eq_some_iff.mp hu
    exact ih (h.of_mem_children (List.mem_of_getElem? hget)) hc

/-- A subtree of a tree that the store owns is owned by it. -/
theorem Owns.subtreeAt? (h : s.Owns t) (hu : t.subtreeAt? place = some u) : s.Owns u := by
  induction place generalizing t with
  | nil =>
    obtain rfl := Option.some.inj hu
    exact h
  | cons i place ih =>
    obtain ⟨c, hget, hc⟩ := Tree.subtreeAt?_cons_eq_some_iff.mp hu
    exact ih (h.of_mem_children (List.mem_of_getElem? hget)) hc

/-- Paths lead to the same nodes in the store and in the tree. -/
theorem Owns.nodeFrom_eq (h : s.Owns t) (depth : Nat) (path : List Int) :
    s.nodeFrom depth t.tag path = (t.followFrom depth path).map Tree.tag := by
  induction path generalizing t depth with
  | nil => rfl
  | cons index path ih =>
    rw [nodeFrom, Tree.followFrom, h.holds.children_tag, elementAt?_map, List.length_map]
    cases hchild : elementAt? t.children index with
    | none => rfl
    | some c => exact ih (h.of_mem_children (mem_of_elementAt?_eq_some hchild)) (depth + 1)

/-- The index of a node is where its parent lists it. -/
theorem indexInParent_eq {id p : NodeId} (hparent : s.parent id = some p)
    (hindex : (s.children p).idxOf? id = some i) : s.indexInParent id = .ok i := by
  rw [indexInParent, hparent]
  simp only [hindex]

/-- A child remembers the node it is listed by. -/
theorem Owns.parent_eq (h : s.Owns t) (hc : t.children[i]? = some c) :
    s.parent c.tag = some t.tag := by
  apply h.linked t.tag t.tag_mem_tags
  rw [h.holds.children_tag]
  exact List.mem_map_of_mem (List.mem_of_getElem? hc)

/-- Where no node is listed twice, a child is found among its siblings at its own index. -/
theorem Holds.idxOf?_eq (h : s.Holds t) (hnodup : (t.children.map Tree.tag).Nodup)
    (hc : t.children[i]? = some c) : (s.children t.tag).idxOf? c.tag = some i := by
  obtain ⟨hlt, rfl⟩ := List.getElem?_eq_some_iff.mp hc
  rw [h.children_tag, List.idxOf?_eq_some_iff]
  refine ⟨by rwa [List.length_map], List.getElem_map _, fun j hj heq => ?_⟩
  rw [← List.getElem_map Tree.tag (h := by rwa [List.length_map]), hnodup.getElem_inj_iff] at heq
  exact absurd heq (Nat.ne_of_lt hj)

/-- A child is listed at its index and nowhere before. -/
theorem Owns.idxOf?_eq (h : s.Owns t) (hc : t.children[i]? = some c) :
    (s.children t.tag).idxOf? c.tag = some i :=
  h.holds.idxOf?_eq (Tree.nodup_map_tag_children h.nodup) hc

/-- The way up from a node is its place, read backwards. -/
theorem Owns.placesWithin_eq (h : s.Owns t) (htop : s.parent t.tag = none) {steps : Nat}
    (hu : t.subtreeAt? place = some u) (hsteps : place.length ≤ steps) :
    s.placesWithin steps u.tag = .ok place.reverse := by
  -- The way up begins where the place ends, so the induction takes the last index off.
  induction place using List.reverseRecOn generalizing u steps with
  | nil =>
    obtain rfl := Option.some.inj hu
    cases steps with
    | zero => rfl
    | succ steps =>
      rw [placesWithin, htop]
      rfl
  | append_singleton place i ih =>
    obtain ⟨p, hp, hc⟩ := Tree.exists_subtreeAt?_of_concat hu
    rw [List.length_append, List.length_singleton] at hsteps
    obtain ⟨steps, rfl⟩ := Nat.exists_eq_add_of_le' hsteps
    have howns := h.subtreeAt? hp
    have hparent := howns.parent_eq hc
    rw [← Nat.add_assoc, placesWithin, hparent]
    simp only [indexInParent_eq hparent (howns.idxOf?_eq hc), bind, Except.bind]
    rw [ih hp (Nat.le_add_left _ _), List.reverse_concat]
    rfl

/-- A node of an owned tree says at which place it stands. -/
theorem Owns.childPath_eq (h : s.Owns t) (htop : s.parent t.tag = none)
    (hu : t.subtreeAt? place = some u) : s.childPath u.tag = .ok place := by
  have hsteps : place.length ≤ s.size :=
    Nat.le_trans (Tree.length_le_height hu) (Nat.le_of_lt h.holds.height_lt_size)
  rw [childPath, h.placesWithin_eq htop hu hsteps]
  exact congrArg Except.ok (List.reverse_reverse place)

end Store

end Rearrange
