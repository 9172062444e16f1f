import Mathlib.Data.List.Flatten
import Rearrange.Proofs.Store.Relink
import Rearrange.Proofs.Tree.Flatten

namespace Rearrange

/-- Inlining drops a node at most. -/
theorem Tree.tags_inline_sublist {α : Type} (op : Operator) (t : Tree α) :
    ((op.inline t).flatMap tags).Sublist t.tags := by
  by_cases hkind : t.kind = .branch (.chain op)
  · cases t with
    | literal a l => simp [kind] at hkind
    | branch a s cs =>
      obtain rfl : s = .chain op := by simpa [kind] using hkind
      rw [Operator.inline_chain, tags_branch]
      exact List.sublist_cons_self a _
  · rw [Operator.inline_of_kind_ne hkind, List.flatMap_singleton]

/-- What a node of a shape has after merging is one of its children or a child of one of them. -/
theorem Tree.exists_of_mem_merge {α : Type} {s : Shape} {cs : List (Tree α)} {d : Tree α}
    (hd : d ∈ s.merge cs) : ∃ c ∈ cs, d = c ∨ d ∈ c.children := by
  cases s with
  | group => exact ⟨d, hd, .inl rfl⟩
  | chain op =>
    obtain ⟨c, hc, hdc⟩ := List.mem_flatMap.mp hd
    refine ⟨c, hc, ?_⟩
    by_cases hkind : c.kind = .branch (.chain op)
    · cases c with
      | literal a l => simp [kind] at hkind
      | branch a s ds =>
        obtain rfl : s = .chain op := by simpa [kind] using hkind
        rw [Operator.inline_chain] at hdc
        exact .inr hdc
    · rw [Operator.inline_of_kind_ne hkind, List.mem_singleton] at hdc
      exact .inl hdc

/-- Flattening drops nodes and keeps the others in their order. -/
theorem Tree.tags_flatten_sublist {α : Type} (t : Tree α) : t.flatten.tags.Sublist t.tags := by
  induction t with
  | literal a l => simp
  | branch a s cs ih =>
    rw [flatten_branch, tags_branch, tags_branch]
    apply List.Sublist.cons_cons
    cases s with
    | group =>
      rw [Shape.merge, List.flatMap_map]
      exact List.Sublist.flatMap_right cs ih
    | chain op =>
      rw [Shape.merge, List.flatMap_map, List.flatMap_assoc]
      apply List.Sublist.flatMap_right
      intro c hc
      exact (tags_inline_sublist op c.flatten).trans (ih c hc)

namespace Store

/-- What flattening the tree below a node does to a store. -/
structure Flattens (s s' : Store) (t : Tree NodeId) : Prop where
  size_eq : s'.size = s.size
  owns : s'.Owns t.flatten
  cell_eq : ∀ id, id ∉ t.tags → s'.cell id = s.cell id
  parent_eq : s'.parent t.tag = s.parent t.tag
  handle_eq : ∀ id, s'.handle id = s.handle id

/-- What flattening the trees below several nodes does to a store. -/
structure FlattensAll (s s' : Store) (cs : List (Tree NodeId)) : Prop where
  size_eq : s'.size = s.size
  owns : ∀ c ∈ cs, s'.Owns c.flatten
  cell_eq : ∀ id, id ∉ cs.flatMap Tree.tags → s'.cell id = s.cell id
  parent_eq : ∀ c ∈ cs, s'.parent c.tag = s.parent c.tag
  handle_eq : ∀ id, s'.handle id = s.handle id

variable {s s' : Store}

/-- Trees that have no node in common are flattened one after the other. -/
theorem FlattensAll.cons {s₁ : Store} {c : Tree NodeId} {cs : List (Tree NodeId)}
    (hnodup : ((c :: cs).flatMap Tree.tags).Nodup) (hc : Flattens s s₁ c)
    (hcs : FlattensAll s₁ s' cs) : FlattensAll s s' (c :: cs) := by
  rw [List.flatMap_cons, List.nodup_append'] at hnodup
  have hdisjoint := hnodup.2.2
  have houtside : ∀ id ∈ c.tags, s'.cell id = s₁.cell id := fun id hid =>
    hcs.cell_eq id fun hmem => hdisjoint hid hmem
  have hflatten : ∀ id ∈ c.flatten.tags, s'.cell id = s₁.cell id := fun id hid =>
    houtside id (c.tags_flatten_sublist.subset hid)
  constructor
  · rw [hcs.size_eq, hc.size_eq]
  · refine List.forall_mem_cons.mpr ⟨?_, hcs.owns⟩
    refine hc.owns.congr (Nat.le_of_eq hcs.size_eq.symm) (fun id hid => ?_) fun id hid => ?_
    · rw [hflatten id hid]
    · rw [parent, hflatten id (List.mem_of_mem_tail hid), parent]
  · intro id hid
    rw [List.flatMap_cons, List.mem_append, not_or] at hid
    rw [hcs.cell_eq id hid.2, hc.cell_eq id hid.1]
  · refine List.forall_mem_cons.mpr ⟨?_, fun d hd => ?_⟩
    · rw [parent, houtside c.tag c.tag_mem_tags]
      exact hc.parent_eq
    · have hout : d.tag ∉ c.tags := fun hmem =>
        hdisjoint hmem (List.mem_flatMap.mpr ⟨d, hd, d.tag_mem_tags⟩)
      rw [hcs.parent_eq d hd, parent, hc.cell_eq _ hout, parent]
  · exact fun id => (hcs.handle_eq id).trans (hc.handle_eq id)

/-- Owned trees that share no node can be flattened one after the other, if each can. -/
theorem flattensAll_foldl {f : Store → NodeId → Store} {cs : List (Tree NodeId)}
    (hf : ∀ (s : Store), ∀ c ∈ cs, s.Owns c → Flattens s (f s c.tag) c)
    (howns : ∀ c ∈ cs, s.Owns c) (hnodup : (cs.flatMap Tree.tags).Nodup) :
    FlattensAll s ((cs.map Tree.tag).foldl f s) cs := by
  induction cs generalizing s with
  | nil => exact ⟨rfl, nofun, fun _ _ => rfl, nofun, fun _ => rfl⟩
  | cons c cs ih =>
    have hfirst := hf s c List.mem_cons_self (howns c List.mem_cons_self)
    have hparts := hnodup
    rw [List.flatMap_cons, List.nodup_append'] at hparts
    refine FlattensAll.cons hnodup hfirst (ih (fun s d hd => hf s d (List.mem_cons_of_mem c hd))
      (fun d hd => ?_) hparts.2.1)
    have hout : ∀ id ∈ d.tags, (f s c.tag).cell id = s.cell id := fun id hid =>
      hfirst.cell_eq id fun hmem => hparts.2.2 hmem (List.mem_flatMap.mpr ⟨d, hd, hid⟩)
    refine (howns d (List.mem_cons_of_mem c hd)).congr (Nat.le_of_eq hfirst.size_eq.symm)
      (fun id hid => ?_) fun id hid => ?_
    · rw [hout id hid]
    · rw [parent, hout id (List.mem_of_mem_tail hid), parent]

/-- The children a chain is given are the tops of the operands that merging leaves. -/
theorem merged_eq_map_tag {op : Operator} {cs : List (Tree NodeId)}
    (hholds : ∀ c ∈ cs, s.Holds c) :
    s.merged (.chain op) (cs.map Tree.tag) = ((Shape.chain op).merge cs).map Tree.tag := by
  rw [merged, Shape.merge, List.flatMap_map, List.map_flatMap]
  apply List.flatMap_congr
  intro c hc
  rw [(hholds c hc).kind_eq]
  by_cases hkind : c.kind = .branch (.chain op)
  · cases c with
    | literal a l => simp [Tree.kind] at hkind
    | branch a shape ds =>
      obtain rfl : shape = .chain op := by simpa [Tree.kind] using hkind
      rw [if_pos hkind, Operator.inline_chain]
      exact (hholds _ hc).children_eq
  · rw [if_neg hkind, Operator.inline_of_kind_ne hkind, List.map_singleton]

/-- Flattening the trees below a branch leaves the branch itself alone. -/
theorem FlattensAll.cell_top {id : NodeId} {shape : Shape} {cs : List (Tree NodeId)}
    (h : s.Owns (.branch id shape cs)) (hcs : FlattensAll s s' cs) : s'.cell id = s.cell id := by
  have hnodup := h.nodup
  rw [Tree.tags_branch, List.nodup_cons] at hnodup
  exact hcs.cell_eq id hnodup.1

/-- No node is met twice once the children are merged. -/
private theorem nodup_tags_flatten_branch {id : NodeId} {shape : Shape} {cs : List (Tree NodeId)}
    (h : s.Owns (.branch id shape cs)) :
    (Tree.branch id shape (shape.merge (cs.map Tree.flatten))).tags.Nodup := by
  rw [← Tree.flatten_branch]
  exact (Tree.tags_flatten_sublist _).nodup h.nodup

/-- A group is flat once its children are. -/
theorem FlattensAll.group {id : NodeId} {cs : List (Tree NodeId)}
    (h : s.Owns (.branch id .group cs)) (hcs : FlattensAll s s' cs) :
    Flattens s s' (.branch id .group cs) := by
  have hcell := hcs.cell_top h
  have hid : id < s'.size := hcs.size_eq ▸ h.holds.lt_size (Tree.tag_mem_tags _)
  have hcontent : (s.cell id).content = .branch .group (cs.map Tree.tag) := by
    cases h.holds with
    | branch hlt hcontent hall => exact hcontent
  constructor
  · exact hcs.size_eq
  · rw [Tree.flatten_branch]
    refine owns_branch hid ?_ (List.forall_mem_map.mpr hcs.owns)
      (List.forall_mem_map.mpr fun c hc => ?_) (nodup_tags_flatten_branch h)
    · rw [hcell, hcontent]
      simp [Shape.merge, Function.comp_def]
    · rw [Tree.tag_flatten, hcs.parent_eq c hc]
      apply h.linked id (Tree.tag_mem_tags (.branch id .group cs))
      rw [h.holds.children_eq]
      exact List.mem_map_of_mem hc
  · intro x hx
    rw [Tree.tags_branch, List.mem_cons, not_or] at hx
    exact hcs.cell_eq x hx.2
  · rw [Tree.tag, parent, hcell, parent]
  · exact hcs.handle_eq

/-- A chain is flat once its children are and it lists the tops of the operands that merging them
leaves. -/
theorem FlattensAll.chain {id : NodeId} {op : Operator} {cs : List (Tree NodeId)}
    (h : s.Owns (.branch id (.chain op) cs)) (hcs : FlattensAll s s' cs) :
    Flattens s (s'.relink id (((Shape.chain op).merge (cs.map Tree.flatten)).map Tree.tag))
      (.branch id (.chain op) cs) := by
  have hcell := hcs.cell_top h
  have hid : id < s'.size := hcs.size_eq ▸ h.holds.lt_size (Tree.tag_mem_tags _)
  have hkind : s'.kind id = .branch (.chain op) := by
    rw [kind, hcell]
    exact h.holds.kind_eq
  -- What is written lies in the tree: the top, and the nodes that are its children now.
  have hbelow : ∀ x ∈ ((Shape.chain op).merge (cs.map Tree.flatten)).map Tree.tag,
      x ∈ (Tree.branch id (.chain op) cs).tags.tail := by
    intro x hx
    obtain ⟨d, hd, rfl⟩ := List.mem_map.mp hx
    have hsublist := (Tree.tags_flatten_sublist (.branch id (.chain op) cs)).tail
    rw [Tree.flatten_branch, Tree.tags_branch, List.tail_cons] at hsublist
    exact hsublist.subset (List.mem_flatMap.mpr ⟨d, hd, d.tag_mem_tags⟩)
  constructor
  · rw [size_relink, hcs.size_eq]
  · have howns : ∀ d ∈ (Shape.chain op).merge (cs.map Tree.flatten), s'.Owns d := by
      intro d hd
      obtain ⟨c, hc, hdc⟩ := Tree.exists_of_mem_merge hd
      have hchild := List.forall_mem_map.mpr hcs.owns c hc
      obtain rfl | hdc := hdc
      · exact hchild
      · exact hchild.of_mem_children hdc
    rw [Tree.flatten_branch]
    exact owns_relink hid hkind howns (nodup_tags_flatten_branch h)
  · intro x hx
    have hout : x ∉ ((Shape.chain op).merge (cs.map Tree.flatten)).map Tree.tag := fun hmem =>
      hx (List.mem_of_mem_tail (hbelow x hmem))
    rw [Tree.tags_branch, List.mem_cons, not_or] at hx
    rw [cell_relink_of_notMem hx.1 hout, hcs.cell_eq x hx.2]
  · rw [parent_relink_of_notMem fun hmem => h.tag_notMem_tail (hbelow _ hmem), Tree.tag, parent,
      hcell, parent]
  · intro x
    rw [handle_relink, hcs.handle_eq]

/-- Once the children of a branch are flat, merging them into it flattens the branch. -/
theorem FlattensAll.absorb {id : NodeId} {shape : Shape} {cs : List (Tree NodeId)}
    (h : s.Owns (.branch id shape cs)) (hcs : FlattensAll s s' cs) :
    Flattens s (s'.absorb id) (.branch id shape cs) := by
  have hcell := hcs.cell_top h
  have hkind : s'.kind id = .branch shape := by
    rw [kind, hcell]
    exact h.holds.kind_eq
  rw [Store.absorb, hkind]
  cases shape with
  | group => exact hcs.group h
  | chain op =>
    have htops : s'.children id = (cs.map Tree.flatten).map Tree.tag := by
      rw [children, hcell, ← children, h.holds.children_eq]
      simp [Function.comp_def]
    rw [htops]
    simp only [merged_eq_map_tag (List.forall_mem_map.mpr fun c hc => (hcs.owns c hc).holds)]
    exact hcs.chain h

/-- With depth enough, the tree below a node is flattened. -/
theorem flattens_flattenWithin {t : Tree NodeId} {depth : Nat} (h : s.Owns t)
    (hdepth : t.size ≤ depth) : Flattens s (s.flattenWithin depth t.tag) t := by
  induction depth generalizing s t with
  | zero => exact absurd t.size_pos (Nat.not_lt.mpr hdepth)
  | succ depth ih =>
    cases t with
    | literal id l =>
      have hcontent : (s.cell id).content = .literal l := by
        cases h.holds with
        | literal hid hcontent => exact hcontent
      have hsame : s.flattenWithin (depth + 1) id = s := by
        simp [flattenWithin, absorb, kind, children, hcontent, Content.kind, Content.children]
      rw [Tree.tag, hsame]
      exact ⟨rfl, by rwa [Tree.flatten_literal], fun _ _ => rfl, rfl, fun _ => rfl⟩
    | branch id shape cs =>
      have hnodup := h.nodup
      rw [Tree.tags_branch, List.nodup_cons] at hnodup
      rw [Tree.size, Nat.add_comm] at hdepth
      rw [Tree.tag, flattenWithin, h.holds.children_eq]
      refine FlattensAll.absorb h (flattensAll_foldl (fun s c hc howns => ?_)
        (fun c hc => h.of_mem hc) hnodup.2)
      exact ih howns (Nat.le_trans (Tree.size_le_sizeAll hc) (Nat.le_of_succ_le_succ hdepth))

/-- Flattening in place flattens the tree. -/
theorem flattens_flatten {t : Tree NodeId} (h : s.Owns t) : Flattens s (s.flatten t.tag) t :=
  flattens_flattenWithin h h.size_le

end Store

end Rearrange
