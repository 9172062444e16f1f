import Mathlib.Data.Finset.Card
import Mathlib.Data.List.Nodup
import Mathlib.Data.List.Pairwise
import Mathlib.Data.List.Perm.Subperm
import Rearrange.Proofs.Tree.Basic
import Rearrange.Store.View

namespace Rearrange

namespace Tree

variable {α : Type}

mutual
/-- The number of steps down to the deepest node. -/
def height : Tree α → Nat
  | literal _ _ => 0
  | branch _ _ cs => heightAll cs

/-- The number of steps down to the deepest node of several trees from a node above them. -/
def heightAll : List (Tree α) → Nat
  | [] => 0
  | c :: cs => max (c.height + 1) (heightAll cs)
end

/-- A child is lower than the branch. -/
theorem height_lt_of_mem {a : α} {s : Shape} {cs : List (Tree α)} {c : Tree α} (hc : c ∈ cs) :
    c.height < (branch a s cs).height := by
  rw [height]
  induction cs with
  | nil => cases hc
  | cons d ds ih =>
    rw [heightAll]
    obtain rfl | hc := List.mem_cons.mp hc
    · omega
    · have := ih hc
      omega

theorem heightAll_lt {cs : List (Tree α)} {n : Nat} (hn : 0 < n)
    (hcs : ∀ c ∈ cs, c.height + 1 < n) : heightAll cs < n := by
  induction cs with
  | nil => rwa [heightAll]
  | cons c cs ih =>
    obtain ⟨hc, hcs⟩ := List.forall_mem_cons.mp hcs
    exact max_lt hc (ih hcs)

/-- The nodes of a child are nodes of the branch. -/
theorem tags_subset_of_mem {a : α} {s : Shape} {cs : List (Tree α)} {c : Tree α} (hc : c ∈ cs) :
    c.tags ⊆ (branch a s cs).tags := by
  intro x hx
  rw [tags_branch]
  exact List.mem_cons_of_mem a (List.mem_flatMap.mpr ⟨c, hc, hx⟩)

theorem size_le_sizeAll {cs : List (Tree α)} {c : Tree α} (hc : c ∈ cs) : c.size ≤ sizeAll cs := by
  induction cs with
  | nil => cases hc
  | cons d ds ih =>
    rw [sizeAll]
    obtain rfl | hc := List.mem_cons.mp hc
    · omega
    · have := ih hc
      omega

/-- Different trees of a list in which no tag occurs twice have no tag in common. -/
theorem disjoint_tags {cs : List (Tree α)} (hnodup : (cs.flatMap tags).Nodup) {c d : Tree α}
    (hc : c ∈ cs) (hd : d ∈ cs) (hne : c ≠ d) : c.tags.Disjoint d.tags := by
  have hsymm : Std.Symm (Function.onFun List.Disjoint (tags (α := α))) :=
    ⟨fun _ _ h => List.disjoint_symm h⟩
  exact (List.nodup_flatMap.mp hnodup).2.forall hc hd hne

end Tree

namespace Store

/-- The cell of every node of the tree has the literal, or the shape and the children, that the tree
shows. -/
inductive Holds (s : Store) : Tree NodeId → Prop where
  | literal {id : NodeId} {l : Literal} (hid : id < s.size)
      (hcontent : (s.cell id).content = .literal l) : Holds s (.literal id l)
  | branch {id : NodeId} {shape : Shape} {cs : List (Tree NodeId)} (hid : id < s.size)
      (hcontent : (s.cell id).content = .branch shape (cs.map Tree.tag))
      (hcs : ∀ c ∈ cs, Holds s c) : Holds s (.branch id shape cs)

/-- The store holds the tree, each of its nodes stands in one place only, and every node below the
top remembers as its parent the node that lists it. -/
structure Owns (s : Store) (t : Tree NodeId) : Prop where
  holds : s.Holds t
  nodup : t.tags.Nodup
  linked : ∀ id ∈ t.tags, ∀ c ∈ s.children id, s.parent c = some id

variable {s s' : Store} {t : Tree NodeId}

/-- The nodes of a tree in the store are nodes of the store. -/
theorem Holds.lt_size (h : s.Holds t) {id : NodeId} (hid : id ∈ t.tags) : id < s.size := by
  induction h with
  | literal hlt hcontent =>
    obtain rfl := List.mem_singleton.mp (by simpa using hid)
    exact hlt
  | branch hlt hcontent hcs ih =>
    rw [Tree.tags_branch, List.mem_cons, List.mem_flatMap] at hid
    obtain rfl | ⟨c, hc, hid⟩ := hid
    · exact hlt
    · exact ih c hc hid

/-- The top lists the tops of the children. -/
theorem Holds.children_tag (h : s.Holds t) : s.children t.tag = t.children.map Tree.tag := by
  cases h with
  | literal hid hcontent =>
    rw [Tree.tag, Store.children, hcontent]
    rfl
  | branch hid hcontent hcs =>
    rw [Tree.tag, Store.children, hcontent]
    rfl

theorem Holds.children_eq {id : NodeId} {shape : Shape} {cs : List (Tree NodeId)}
    (h : s.Holds (.branch id shape cs)) : s.children id = cs.map Tree.tag :=
  h.children_tag

theorem Holds.kind_eq (h : s.Holds t) : s.kind t.tag = t.kind := by
  cases h with
  | literal hid hcontent => rw [Tree.tag, Store.kind, hcontent, Content.kind, Tree.kind]
  | branch hid hcontent hcs => rw [Tree.tag, Store.kind, hcontent, Content.kind, Tree.kind]

/-- Whatever a node of a held tree lists is a node of the tree, below the top. -/
theorem Holds.mem_tail_of_mem_children (h : s.Holds t) {id c : NodeId} (hid : id ∈ t.tags)
    (hc : c ∈ s.children id) : c ∈ t.tags.tail := by
  induction h with
  | literal hlt hcontent =>
    obtain rfl := List.mem_singleton.mp (by simpa using hid)
    rw [Store.children, hcontent] at hc
    cases hc
  | branch hlt hcontent hcs ih =>
    rw [Tree.tags_branch, List.mem_cons, List.mem_flatMap] at hid
    rw [Tree.tags_branch, List.tail_cons, List.mem_flatMap]
    obtain rfl | ⟨d, hd, hid⟩ := hid
    · rw [Store.children, hcontent] at hc
      obtain ⟨d, hd, rfl⟩ := List.mem_map.mp hc
      exact ⟨d, hd, d.tag_mem_tags⟩
    · exact ⟨d, hd, List.mem_of_mem_tail (ih d hd hid)⟩

/-- No node of the tree lists one outside of it. -/
theorem Holds.mem_of_mem_children (h : s.Holds t) {id c : NodeId} (hid : id ∈ t.tags)
    (hc : c ∈ s.children id) : c ∈ t.tags :=
  List.mem_of_mem_tail (h.mem_tail_of_mem_children hid hc)

/-- The top of a held tree and the nodes listed in the tree are the nodes of the tree. -/
theorem Holds.listed_perm (h : s.Holds t) : (t.tag :: t.tags.flatMap s.children).Perm t.tags := by
  induction h with
  | literal hlt hcontent =>
    rw [Tree.tags_literal, List.flatMap_singleton, Store.children, hcontent]
    exact .refl _
  | @branch top shape cs hlt hcontent hcs ih =>
    have hchildren : s.children top = cs.map Tree.tag := by
      rw [Store.children, hcontent, Content.children]
    rw [Tree.tags_branch, List.flatMap_cons, hchildren, List.flatMap_assoc]
    refine List.Perm.cons top ((List.map_append_flatMap_perm _ _ _).trans ?_)
    exact List.Perm.flatMap_left cs ih

/-- A held tree is held by every later store that leaves the contents of its nodes alone. -/
theorem Holds.congr (h : s.Holds t) (hsize : s.size ≤ s'.size)
    (hsame : ∀ id ∈ t.tags, (s'.cell id).content = (s.cell id).content) : s'.Holds t := by
  induction h with
  | literal hid hcontent =>
    exact .literal (Nat.lt_of_lt_of_le hid hsize) ((hsame _ (Tree.tag_mem_tags _)).trans hcontent)
  | branch hid hcontent hcs ih =>
    refine .branch (Nat.lt_of_lt_of_le hid hsize)
      ((hsame _ (Tree.tag_mem_tags _)).trans hcontent) fun c hc => ?_
    exact ih c hc fun id hid => hsame id (Tree.tags_subset_of_mem hc hid)

/-- The view of a store down to a given depth shows a held tree in full if it is not deeper. -/
theorem Holds.treeWithin_eq (h : s.Holds t) {depth : Nat} (hdepth : t.height ≤ depth) :
    s.treeWithin depth t.tag = t := by
  induction h generalizing depth with
  | literal hid hcontent => rw [Tree.tag, treeWithin, hcontent]
  | branch hid hcontent hcs ih =>
    rw [Tree.tag, treeWithin, hcontent]
    cases depth with
    | zero =>
      have hnil : ∀ c, c ∉ _ := fun c hc =>
        absurd (Nat.lt_of_lt_of_le (Tree.height_lt_of_mem hc) hdepth) (Nat.not_lt_zero _)
      rw [List.eq_nil_iff_forall_not_mem.mpr hnil]
    | succ depth =>
      have hsame : ∀ c ∈ _, s.treeWithin depth (Tree.tag c) = c := fun c hc =>
        ih c hc (Nat.le_of_lt_succ (Nat.lt_of_lt_of_le (Tree.height_lt_of_mem hc) hdepth))
      simp only [List.map_map, Tree.branch.injEq, true_and]
      exact (List.map_congr_left hsame).trans (List.map_id' _)

theorem Holds.of_mem {id : NodeId} {shape : Shape} {cs : List (Tree NodeId)}
    (h : s.Holds (.branch id shape cs)) {c : Tree NodeId} (hc : c ∈ cs) : s.Holds c := by
  cases h with
  | branch hid hcontent hcs => exact hcs c hc

/-- A child of a tree in the store is in the store. -/
theorem Holds.of_mem_children (h : s.Holds t) {c : Tree NodeId} (hc : c ∈ t.children) :
    s.Holds c := by
  cases t with
  | literal id l => cases hc
  | branch id shape cs => exact h.of_mem hc

/-- A store holds one tree with a given top. -/
theorem Holds.eq_of_tag_eq {u : Tree NodeId} (ht : s.Holds t) (hu : s.Holds u)
    (htag : t.tag = u.tag) : t = u := by
  have hdeep := ht.treeWithin_eq (Nat.le_max_left t.height u.height)
  rw [htag, hu.treeWithin_eq (Nat.le_max_right t.height u.height)] at hdeep
  exact hdeep.symm

/-- A node of a held tree is the top of a held tree that is not larger. -/
theorem Holds.exists_of_mem (h : s.Holds t) {id : NodeId} (hid : id ∈ t.tags) :
    ∃ u, s.Holds u ∧ u.tag = id ∧ u.size ≤ t.size := by
  induction h with
  | @literal top l hlt hcontent =>
    obtain rfl := List.mem_singleton.mp (by simpa using hid)
    exact ⟨_, .literal hlt hcontent, rfl, Nat.le_refl _⟩
  | @branch top shape cs hlt hcontent hcs ih =>
    rw [Tree.tags_branch, List.mem_cons, List.mem_flatMap] at hid
    obtain rfl | ⟨c, hc, hid⟩ := hid
    · exact ⟨_, .branch hlt hcontent hcs, rfl, Nat.le_refl _⟩
    · obtain ⟨u, hu, htag, hsize⟩ := ih c hc hid
      refine ⟨u, hu, htag, Nat.le_trans hsize ?_⟩
      rw [Tree.size]
      exact Nat.le_add_left_of_le (Tree.size_le_sizeAll hc)

/-- No node of a held tree stands below itself, for the tree below it would be as large as a part
of it. -/
theorem Holds.notMem_tags_of_mem {id : NodeId} {shape : Shape} {cs : List (Tree NodeId)}
    (h : s.Holds (.branch id shape cs)) {c : Tree NodeId} (hc : c ∈ cs) : id ∉ c.tags := by
  intro hid
  obtain ⟨u, hu, htag, hsize⟩ := (h.of_mem hc).exists_of_mem hid
  obtain rfl := hu.eq_of_tag_eq h htag
  rw [Tree.size] at hsize
  have := Tree.size_le_sizeAll hc
  omega

/-- A held tree is less deep than it has nodes, even where nodes stand in several places. -/
theorem Holds.height_lt_card (h : s.Holds t) : t.height < t.tags.toFinset.card := by
  induction h with
  | literal hid hcontent => simp [Tree.height]
  | @branch id shape cs hid hcontent hcs ih =>
    refine Tree.heightAll_lt (by simp) fun c hc => ?_
    have hout := (Holds.branch hid hcontent hcs).notMem_tags_of_mem hc
    have hsubset : insert id c.tags.toFinset ⊆ (Tree.branch id shape cs).tags.toFinset := by
      rw [Finset.insert_subset_iff, List.mem_toFinset]
      refine ⟨Tree.tag_mem_tags _, fun x hx => ?_⟩
      exact List.mem_toFinset.mpr (Tree.tags_subset_of_mem hc (List.mem_toFinset.mp hx))
    have hcard := Finset.card_le_card hsubset
    rw [Finset.card_insert_of_notMem (by simpa using hout)] at hcard
    exact Nat.lt_of_lt_of_le (Nat.succ_lt_succ (ih c hc)) hcard

/-- A tree in the store is lower than the store has nodes. -/
theorem Holds.height_lt_size (h : s.Holds t) : t.height < s.size := by
  have hsubset : t.tags.toFinset ⊆ Finset.range s.size := fun id hid =>
    Finset.mem_range.mpr (h.lt_size (List.mem_toFinset.mp hid))
  have hcard := Finset.card_le_card hsubset
  rw [Finset.card_range] at hcard
  exact Nat.lt_of_lt_of_le h.height_lt_card hcard

/-- The tree that a store shows below the top of a held tree is that tree. -/
theorem Holds.tree_eq (h : s.Holds t) : s.tree t.tag = t :=
  h.treeWithin_eq (Nat.le_of_lt h.height_lt_size)

/-- A walk from the top meets the nodes of the tree in order. -/
theorem Holds.walk_eq (h : s.Holds t) : s.walk t.tag = t.tags :=
  congrArg Tree.tags h.tree_eq

/-- The expression below the top is the tree without its nodes. -/
theorem Holds.expr_eq (h : s.Holds t) : s.expr t.tag = t.erase :=
  congrArg Tree.erase h.tree_eq

/-- The labels below the top are those of the nodes of the tree. -/
theorem Holds.labelled_eq (h : s.Holds t) : s.labelled t.tag = t.map s.handle :=
  congrArg (Tree.map s.handle) h.tree_eq

/-- A tree has no more nodes than the store that owns it. -/
theorem Owns.size_le (h : s.Owns t) : t.size ≤ s.size := by
  rw [← Tree.length_tags]
  have hsubset : t.tags ⊆ List.range s.size := fun id hid =>
    List.mem_range.mpr (h.holds.lt_size hid)
  simpa using (h.nodup.subperm hsubset).length_le

/-- The tree that a store shows below the top of an owned tree is that tree. -/
theorem Owns.tree_eq (h : s.Owns t) : s.tree t.tag = t :=
  h.holds.tree_eq

theorem Owns.walk_eq (h : s.Owns t) : s.walk t.tag = t.tags :=
  h.holds.walk_eq

theorem Owns.expr_eq (h : s.Owns t) : s.expr t.tag = t.erase :=
  h.holds.expr_eq

theorem Owns.labelled_eq (h : s.Owns t) : s.labelled t.tag = t.map s.handle :=
  h.holds.labelled_eq

theorem Owns.of_mem {id : NodeId} {shape : Shape} {cs : List (Tree NodeId)}
    (h : s.Owns (.branch id shape cs)) {c : Tree NodeId} (hc : c ∈ cs) : s.Owns c := by
  have hnodup := h.nodup
  rw [Tree.tags_branch, List.nodup_cons, List.nodup_flatMap] at hnodup
  exact ⟨h.holds.of_mem hc, hnodup.2.1 c hc, fun x hx => h.linked x (Tree.tags_subset_of_mem hc hx)⟩

/-- A child of a tree that the store owns is owned by it. -/
theorem Owns.of_mem_children (h : s.Owns t) {c : Tree NodeId} (hc : c ∈ t.children) :
    s.Owns c := by
  cases t with
  | literal id l => cases hc
  | branch id shape cs => exact h.of_mem hc

/-- An owned tree stays owned in a later store that changes no content and no parent in it. -/
theorem Owns.congr (h : s.Owns t) (hsize : s.size ≤ s'.size)
    (hcontent : ∀ id ∈ t.tags, (s'.cell id).content = (s.cell id).content)
    (hparent : ∀ id ∈ t.tags.tail, s'.parent id = s.parent id) : s'.Owns t := by
  refine ⟨h.holds.congr hsize hcontent, h.nodup, fun id hid c hc => ?_⟩
  rw [Store.children, hcontent id hid] at hc
  rw [hparent c (h.holds.mem_tail_of_mem_children hid hc)]
  exact h.linked id hid c hc

/-- The top is met once. -/
theorem Owns.tag_notMem_tail (h : s.Owns t) : t.tag ∉ t.tags.tail := by
  have hnodup := h.nodup
  cases t with
  | literal id l => simp
  | branch id shape cs =>
    rw [Tree.tags_branch, List.nodup_cons] at hnodup
    rw [Tree.tags_branch, List.tail_cons]
    exact hnodup.1

end Store

end Rearrange
