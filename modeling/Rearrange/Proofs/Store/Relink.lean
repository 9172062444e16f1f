import Rearrange.Proofs.Store.Owns
import Rearrange.Store.Edit

namespace Rearrange.Store

variable {s s' : Store}

theorem cell_modify (s : Store) (id : NodeId) (f : Cell → Cell) (other : NodeId) :
    (s.modify id f).cell other =
      if other = id ∧ other < s.size then f (s.cell other) else s.cell other := by
  by_cases hother : other = id
  · subst hother
    by_cases hlt : other < s.size
    · rw [cell_modify_self hlt, if_pos ⟨rfl, hlt⟩]
    · rw [if_neg fun h => hlt h.2]
      simp only [size] at hlt
      simp [cell, modify, hlt]
  · rw [cell_modify_of_ne hother, if_neg fun h => hother h.1]

@[simp] theorem content_setParent (s : Store) (id p other : NodeId) :
    ((s.setParent id p).cell other).content = (s.cell other).content := by
  rw [setParent, cell_modify]
  split <;> rfl

@[simp] theorem handle_setParent (s : Store) (id p other : NodeId) :
    (s.setParent id p).handle other = s.handle other := by
  rw [handle, setParent, cell_modify]
  split <;> rfl

private theorem parent_setParent (s : Store) (id p other : NodeId) :
    (s.setParent id p).parent other =
      if other = id ∧ other < s.size then some p else s.parent other := by
  rw [parent, setParent, cell_modify]
  split <;> rfl

private theorem adopt_cons (s : Store) (p c : NodeId) (cs : List NodeId) :
    s.adopt p (c :: cs) = (s.setParent c p).adopt p cs :=
  rfl

@[simp] theorem content_adopt (s : Store) (p : NodeId) (cs : List NodeId) (other : NodeId) :
    ((s.adopt p cs).cell other).content = (s.cell other).content := by
  induction cs generalizing s with
  | nil => rfl
  | cons c cs ih => rw [adopt_cons, ih, content_setParent]

@[simp] theorem handle_adopt (s : Store) (p : NodeId) (cs : List NodeId) (other : NodeId) :
    (s.adopt p cs).handle other = s.handle other := by
  induction cs generalizing s with
  | nil => rfl
  | cons c cs ih => rw [adopt_cons, ih, handle_setParent]

/-- The adopted nodes remember their new parent, and the others their old one. -/
theorem parent_adopt (s : Store) (p : NodeId) (cs : List NodeId) (other : NodeId) :
    (s.adopt p cs).parent other =
      if other ∈ cs ∧ other < s.size then some p else s.parent other := by
  induction cs generalizing s with
  | nil => simp [adopt]
  | cons c cs ih =>
    rw [adopt_cons, ih, parent_setParent, setParent, size_modify]
    simp only [List.mem_cons]
    by_cases hlt : other < s.size <;> by_cases hmem : other ∈ cs <;> simp [hlt, hmem]

theorem content_relink_self {id : NodeId} (cs : List NodeId) (hid : id < s.size) :
    ((s.relink id cs).cell id).content = (s.cell id).content.withChildren cs := by
  rw [relink, content_adopt, cell_modify_self hid]

theorem content_relink_of_ne {id other : NodeId} (cs : List NodeId) (hne : other ≠ id) :
    ((s.relink id cs).cell other).content = (s.cell other).content := by
  rw [relink, content_adopt, cell_modify_of_ne hne]

@[simp] theorem handle_relink (s : Store) (id : NodeId) (cs : List NodeId) (other : NodeId) :
    (s.relink id cs).handle other = s.handle other := by
  rw [relink, handle_adopt, handle, cell_modify]
  split <;> rfl

/-- New children remember the node that lists them. -/
theorem parent_relink_of_mem {id other : NodeId} {cs : List NodeId} (hmem : other ∈ cs)
    (hother : other < s.size) : (s.relink id cs).parent other = some id := by
  rw [relink, parent_adopt, size_modify, if_pos ⟨hmem, hother⟩]

/-- All other nodes remember the parent they had. -/
theorem parent_relink_of_notMem {id other : NodeId} {cs : List NodeId} (hmem : other ∉ cs) :
    (s.relink id cs).parent other = s.parent other := by
  rw [relink, parent_adopt, if_neg fun h => hmem h.1, parent, cell_modify]
  split <;> rfl

/-- A node that is neither the parent nor among the children stays as it is. -/
theorem cell_relink_of_notMem {id other : NodeId} {cs : List NodeId} (hne : other ≠ id)
    (hmem : other ∉ cs) : (s.relink id cs).cell other = s.cell other := by
  have hcontent := content_relink_of_ne (s := s) cs hne
  have hhandle := handle_relink s id cs other
  have hparent : (s.relink id cs).parent other = s.parent other := parent_relink_of_notMem hmem
  rw [handle, handle] at hhandle
  rw [parent, parent] at hparent
  cases hnew : (s.relink id cs).cell other
  cases hold : s.cell other
  simp_all

/-- Attaching a node writes two cells: the one above gets the node as its last child, and the node
is adopted. -/
theorem attach_eq (s : Store) (id child : NodeId) :
    s.attach id child = (s.modify id fun c =>
      { c with content := c.content.withChildren (c.content.children ++ [child]) }).adopt id
        [child] :=
  rfl

/-- An attached child is listed last. -/
theorem content_attach (s : Store) (id child other : NodeId) :
    ((s.attach id child).cell other).content =
      if other = id ∧ other < s.size then
        (s.cell other).content.withChildren (s.children other ++ [child])
      else (s.cell other).content := by
  rw [attach, content_setParent, cell_modify]
  split <;> rfl

@[simp] theorem handle_attach (s : Store) (id child other : NodeId) :
    (s.attach id child).handle other = s.handle other := by
  rw [attach, handle_setParent, handle, cell_modify]
  split <;> rfl

/-- An attached child remembers the node that lists it. -/
theorem parent_attach (s : Store) (id child other : NodeId) :
    (s.attach id child).parent other =
      if other = child ∧ other < s.size then some id else s.parent other := by
  have hkept : ∀ f : Cell → Content,
      (s.modify id fun c => { c with content := f c }).parent other = s.parent other := fun f => by
    rw [parent, cell_modify]
    split <;> rfl
  rw [attach, parent_setParent, size_modify, hkept]

@[simp] theorem size_attach (s : Store) (id child : NodeId) :
    (s.attach id child).size = s.size := by
  rw [attach, setParent, size_modify, size_modify]

theorem cell_attach_of_ne {id child other : NodeId} (hid : other ≠ id) (hchild : other ≠ child) :
    (s.attach id child).cell other = s.cell other := by
  rw [attach, setParent, cell_modify_of_ne hchild, cell_modify_of_ne hid]

/-- A node that is written right after it is made may be made as it is written. -/
private theorem modify_push (s : Store) (c : Cell) (f : Cell → Cell) :
    (s.push c).modify s.size f = s.push (f c) := by
  simp only [modify, push, size, mk.injEq]
  refine Array.ext (by simp) fun i hi _ => ?_
  rw [Array.getElem_modify, Array.getElem_push, Array.getElem_push]
  grind

/-- A branch is made in one go: it lists its children from the start, and they adopt it. -/
theorem makeBranch_eq (s : Store) (shape : Shape) (cs : List NodeId) (handle : Option Handle) :
    s.makeBranch shape cs handle =
      (s.size, (s.push { content := .branch shape cs, handle }).adopt s.size cs) := by
  rw [makeBranch, relink, modify_push]
  rfl

/-- What making a node comes to: a new node that has no children but given ones, and these remember
it as their parent. -/
theorem exists_of_make {kind : Kind} {given : Datum} {cs : List NodeId} {handle : Option Handle}
    {id : NodeId} (h : s.make kind given cs handle = .ok (id, s')) :
    ∃ content : Content, content.children ⊆ cs ∧
      s' = (s.push { content, handle }).adopt s.size content.children := by
  rw [make] at h
  cases hhead : kind.head given cs.isEmpty with
  | error e =>
    rw [hhead] at h
    cases h
  | ok head =>
    rw [hhead] at h
    cases head with
    | literal l =>
      obtain rfl := (Prod.mk.inj (Except.ok.inj h)).2
      exact ⟨.literal l, List.nil_subset cs, rfl⟩
    | branch shape =>
      have hmade : s.makeBranch shape cs handle = (id, s') := Except.ok.inj h
      rw [makeBranch_eq] at hmade
      exact ⟨.branch shape cs, List.Subset.refl cs, (Prod.mk.inj hmade).2.symm⟩

/-- A child is added to a branch, as the last one. -/
theorem exists_of_addChild {id child : NodeId} (h : s.addChild id child = .ok s') :
    (∃ shape, s.kind id = .branch shape) ∧ s' = s.attach id child := by
  rw [addChild] at h
  split at h
  · cases h
  · next shape hkind => exact ⟨⟨shape, hkind⟩, (Except.ok.inj h).symm⟩

/-- Children are given to a branch, and to a literal only if there are none of them. -/
theorem eq_of_setChildren {id : NodeId} {cs : List NodeId} (h : s.setChildren id cs = .ok s') :
    cs = [] ∧ s' = s ∨ s' = s.relink id cs := by
  rw [setChildren] at h
  split at h
  · split at h
    · next hempty => exact .inl ⟨List.isEmpty_iff.mp hempty, (Except.ok.inj h).symm⟩
    · cases h
  · exact .inr (Except.ok.inj h).symm

/-- A store owns a branch whose cell lists the tops of owned trees that all remember it. -/
theorem owns_branch {id : NodeId} {shape : Shape} {ds : List (Tree NodeId)} (hid : id < s.size)
    (hcontent : (s.cell id).content = .branch shape (ds.map Tree.tag)) (hds : ∀ d ∈ ds, s.Owns d)
    (hparent : ∀ d ∈ ds, s.parent d.tag = some id)
    (hnodup : (Tree.branch id shape ds).tags.Nodup) : s.Owns (.branch id shape ds) := by
  refine ⟨.branch hid hcontent fun d hd => (hds d hd).holds, hnodup, fun x hx c hc => ?_⟩
  rw [Tree.tags_branch, List.mem_cons, List.mem_flatMap] at hx
  obtain rfl | ⟨d, hd, hx⟩ := hx
  · rw [Store.children, hcontent, Content.children] at hc
    obtain ⟨d, hd, rfl⟩ := List.mem_map.mp hc
    exact hparent d hd
  · exact (hds d hd).linked x hx c hc

/-- In a list of owned trees no node but the tops themselves is a top. -/
theorem notMem_map_tag_of_mem_tail {ds : List (Tree NodeId)} (hnodup : (ds.flatMap Tree.tags).Nodup)
    (howns : ∀ d ∈ ds, s.Owns d) {d : Tree NodeId} (hd : d ∈ ds) {c : NodeId}
    (hc : c ∈ d.tags.tail) : c ∉ ds.map Tree.tag := by
  intro hmem
  obtain ⟨e, he, rfl⟩ := List.mem_map.mp hmem
  by_cases heq : d = e
  · subst heq
    exact (howns d hd).tag_notMem_tail hc
  · exact Tree.disjoint_tags hnodup hd he heq (List.mem_of_mem_tail hc) e.tag_mem_tags

/-- An owned tree that is attached below another one becomes the last of its parts. -/
theorem owns_attach {id : NodeId} {shape : Shape} {ds : List (Tree NodeId)} {u : Tree NodeId}
    (h : s.Owns (.branch id shape ds)) (hu : s.Owns u)
    (hdisjoint : (Tree.branch id shape ds).tags.Disjoint u.tags) :
    (s.attach id u.tag).Owns (.branch id shape (ds ++ [u])) := by
  have hid := h.holds.lt_size (Tree.tag_mem_tags _)
  have hsize := size_attach s id u.tag
  have hu_ne : ∀ x ∈ u.tags, x ≠ id := fun x hx heq =>
    hdisjoint (Tree.tag_mem_tags (.branch id shape ds)) (heq ▸ hx)
  have hcontent : ((s.attach id u.tag).cell id).content =
      .branch shape ((ds ++ [u]).map Tree.tag) := by
    rw [content_attach, if_pos ⟨rfl, hid⟩, h.holds.children_eq, List.map_append]
    cases h.holds with
    | branch _ hold _ => rw [hold, Content.withChildren, List.map_singleton]
  have hnodup : (Tree.branch id shape (ds ++ [u])).tags.Nodup := by
    have htags : (Tree.branch id shape (ds ++ [u])).tags =
        (Tree.branch id shape ds).tags ++ u.tags := by
      rw [Tree.tags_branch, Tree.tags_branch, List.flatMap_append, List.flatMap_singleton,
        List.cons_append]
    rw [htags]
    exact List.Nodup.append h.nodup hu.nodup hdisjoint
  -- Two cells are written, those of the top and of the new child. Other trees have neither in them,
  -- or have the new child at their top, where its parent does not count.
  have hkept : ∀ {v : Tree NodeId}, s.Owns v → (∀ x ∈ v.tags, x ≠ id) →
      (∀ x ∈ v.tags.tail, x ≠ u.tag) → (s.attach id u.tag).Owns v := by
    intro v hv hne htail
    refine hv.congr (Nat.le_of_eq hsize.symm) (fun x hx => ?_) fun x hx => ?_
    · rw [content_attach, if_neg fun heq => hne x hx heq.1]
    · rw [parent_attach, if_neg fun heq => htail x hx heq.1]
  have hout := h.nodup
  rw [Tree.tags_branch, List.nodup_cons, List.mem_flatMap] at hout
  refine owns_branch (hsize ▸ hid) hcontent (fun d hd => ?_) (fun d hd => ?_) hnodup
  · obtain hd | hd := List.mem_append.mp hd
    · refine hkept (h.of_mem hd) (fun x hx heq => hout.1 ⟨d, hd, heq ▸ hx⟩) fun x hx heq => ?_
      exact hdisjoint (Tree.tags_subset_of_mem hd (List.mem_of_mem_tail hx))
        (heq ▸ u.tag_mem_tags)
    · obtain rfl := List.mem_singleton.mp hd
      exact hkept hu hu_ne fun x hx heq => hu.tag_notMem_tail (heq ▸ hx)
  · rw [parent_attach]
    obtain hd | hd := List.mem_append.mp hd
    · have hlinked := h.linked id (Tree.tag_mem_tags (.branch id shape ds)) d.tag
        (h.holds.children_eq ▸ List.mem_map_of_mem hd)
      rw [hlinked, ite_self]
    · obtain rfl := List.mem_singleton.mp hd
      rw [if_pos ⟨rfl, hu.holds.lt_size d.tag_mem_tags⟩]

/-- A branch that is relinked to the tops of owned trees owns them as its children. -/
theorem owns_relink {id : NodeId} {shape : Shape} {ds : List (Tree NodeId)} (hid : id < s.size)
    (hkind : s.kind id = .branch shape) (hds : ∀ d ∈ ds, s.Owns d)
    (hnodup : (Tree.branch id shape ds).tags.Nodup) :
    (s.relink id (ds.map Tree.tag)).Owns (.branch id shape ds) := by
  have hparts := hnodup
  rw [Tree.tags_branch, List.nodup_cons, List.mem_flatMap] at hparts
  obtain ⟨hout, hall⟩ := hparts
  have hsize := size_relink s id (ds.map Tree.tag)
  have hcontent : ((s.relink id (ds.map Tree.tag)).cell id).content =
      .branch shape (ds.map Tree.tag) := by
    rw [content_relink_self _ hid]
    rw [kind] at hkind
    cases hold : (s.cell id).content with
    | literal l => simp [hold, Content.kind] at hkind
    | branch shape' cs =>
      obtain rfl : shape' = shape := by simpa [hold, Content.kind] using hkind
      rfl
  refine owns_branch (hsize ▸ hid) hcontent (fun d hd => ?_) (fun d hd => ?_) hnodup
  · refine (hds d hd).congr (Nat.le_of_eq hsize.symm) (fun x hx => ?_) fun x hx => ?_
    · exact content_relink_of_ne _ fun heq => hout ⟨d, hd, heq ▸ hx⟩
    · exact parent_relink_of_notMem (notMem_map_tag_of_mem_tail hall hds hd hx)
  · exact parent_relink_of_mem (List.mem_map_of_mem hd) ((hds d hd).holds.lt_size d.tag_mem_tags)

end Rearrange.Store
