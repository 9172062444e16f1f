import Rearrange.Proofs.Store.Flatten
import Rearrange.Proofs.Tree.Merging

namespace Rearrange

namespace Tree

variable {α : Type}

private theorem heightAll_le {cs : List (Tree α)} {n : Nat} (h : ∀ c ∈ cs, c.height < n) :
    heightAll cs ≤ n :=
  Nat.le_of_lt_succ (heightAll_lt n.succ_pos fun c hc => Nat.succ_lt_succ (h c hc))

/-- The second tree is the first with chains merged in some places. -/
structure Condenses (t u : Tree α) : Prop where
  mergeEquiv : MergeEquiv u t
  height_le : u.height ≤ t.height
  tags_subset : u.tags ⊆ t.tags

namespace Condenses

theorem refl (t : Tree α) : t.Condenses t :=
  ⟨.refl t, Nat.le_refl _, List.Subset.refl _⟩

theorem trans {t u v : Tree α} (htu : t.Condenses u) (huv : u.Condenses v) : t.Condenses v :=
  ⟨huv.mergeEquiv.trans htu.mergeEquiv, Nat.le_trans huv.height_le htu.height_le,
    List.Subset.trans huv.tags_subset htu.tags_subset⟩

/-- A branch is condensed if its children are. -/
theorem branch (a : α) (s : Shape) {cs : List (Tree α)} {f : Tree α → Tree α}
    (hf : ∀ c ∈ cs, c.Condenses (f c)) :
    (Tree.branch a s cs).Condenses (.branch a s (cs.map f)) := by
  constructor
  · apply MergeEquiv.of_forall₂
    exact List.forall₂_map_left_iff.mpr (List.forall₂_same.mpr fun c hc => (hf c hc).mergeEquiv)
  · rw [height]
    refine heightAll_le (List.forall_mem_map.mpr fun c hc => ?_)
    exact Nat.lt_of_le_of_lt (hf c hc).height_le (height_lt_of_mem hc)
  · intro x hx
    rw [tags_branch, List.mem_cons, List.mem_flatMap] at hx ⊢
    obtain rfl | ⟨d, hd, hx⟩ := hx
    · exact .inl rfl
    · obtain ⟨c, hc, rfl⟩ := List.mem_map.mp hd
      exact .inr ⟨c, hc, (hf c hc).tags_subset hx⟩

/-- A branch is condensed by merging its children. -/
theorem merge (a : α) (s : Shape) (cs : List (Tree α)) :
    (Tree.branch a s cs).Condenses (.branch a s (s.merge cs)) := by
  constructor
  · exact .branch_merge a s cs
  · rw [height]
    refine heightAll_le fun d hd => ?_
    obtain ⟨c, hc, rfl | hdc⟩ := exists_of_mem_merge hd
    · exact height_lt_of_mem hc
    · cases c with
      | literal b l => cases hdc
      | branch b r ds => exact Nat.lt_trans (height_lt_of_mem hdc) (height_lt_of_mem hc)
  · intro x hx
    rw [tags_branch, List.mem_cons, List.mem_flatMap] at hx
    obtain rfl | ⟨d, hd, hx⟩ := hx
    · exact tag_mem_tags (.branch x s cs)
    · obtain ⟨c, hc, rfl | hdc⟩ := exists_of_mem_merge hd
      · exact tags_subset_of_mem hc hx
      · cases c with
        | literal b l => cases hdc
        | branch b r ds => exact tags_subset_of_mem hc (tags_subset_of_mem hdc hx)

end Condenses

end Tree

namespace Store

variable {s s' : Store} {t : Tree NodeId}

private theorem size_absorb (s : Store) (id : NodeId) : (s.absorb id).size = s.size := by
  rw [absorb]
  split
  · exact size_relink _ _ _
  · rfl

private theorem content_absorb_of_ne {id other : NodeId} (hne : other ≠ id) :
    ((s.absorb id).cell other).content = (s.cell other).content := by
  rw [absorb]
  split
  · exact content_relink_of_ne _ hne
  · rfl

private theorem content_absorb_literal (id : NodeId) {other : NodeId} {l : Literal}
    (hcontent : (s.cell other).content = .literal l) :
    ((s.absorb id).cell other).content = .literal l := by
  by_cases heq : other = id
  · subst heq
    rw [absorb, kind, hcontent]
    exact hcontent
  · exact (content_absorb_of_ne heq).trans hcontent

/-- A node lists the tops of what its children become by merging. -/
theorem Holds.content_absorb {id : NodeId} {shape : Shape} {cs : List (Tree NodeId)}
    (h : s.Holds (.branch id shape cs)) :
    ((s.absorb id).cell id).content = .branch shape ((shape.merge cs).map Tree.tag) := by
  have hcontent : (s.cell id).content = .branch shape (cs.map Tree.tag) := by
    cases h with
    | branch hid hcontent hcs => exact hcontent
  have hkind : s.kind id = .branch shape := h.kind_eq
  rw [absorb, hkind]
  cases shape with
  | group => exact hcontent
  | chain op =>
    have hmerged : s.merged (.chain op) (cs.map Tree.tag) =
        ((Shape.chain op).merge cs).map Tree.tag := merged_eq_map_tag fun c hc => h.of_mem hc
    have hid : id < s.size := h.lt_size (Tree.tag_mem_tags _)
    simp only [h.children_eq, hmerged]
    rw [content_relink_self _ hid, hcontent, Content.withChildren]

/-- No node stands below itself, so merging the children of a node changes nothing below it. -/
theorem Holds.absorb {id : NodeId} {shape : Shape} {cs : List (Tree NodeId)}
    (h : s.Holds (.branch id shape cs)) :
    (s.absorb id).Holds (.branch id shape (shape.merge cs)) := by
  have hid := h.lt_size (Tree.tag_mem_tags _)
  refine .branch (size_absorb s id ▸ hid) h.content_absorb fun d hd => ?_
  obtain ⟨c, hc, hdc⟩ := Tree.exists_of_mem_merge hd
  have hchild : (s.absorb id).Holds c := by
    refine (h.of_mem hc).congr (Nat.le_of_eq (size_absorb s id).symm) fun x hx => ?_
    apply content_absorb_of_ne
    rintro rfl
    exact h.notMem_tags_of_mem hc hx
  obtain rfl | hdc := hdc
  · exact hchild
  · exact hchild.of_mem_children hdc

/-- Merging the children of a node condenses every tree, wherever the node stands in it. -/
theorem Holds.exists_condenses_absorb (h : s.Holds t) (id : NodeId) :
    ∃ u, (s.absorb id).Holds u ∧ t.Condenses u := by
  induction h with
  | @literal x l hx hcontent =>
    exact ⟨_, .literal (size_absorb s id ▸ hx) (content_absorb_literal id hcontent), .refl _⟩
  | @branch x shape cs hx hcontent hcs ih =>
    by_cases heq : x = id
    · subst heq
      exact ⟨_, (Holds.branch hx hcontent hcs).absorb, .merge x shape cs⟩
    · choose! f hf using ih
      have htags : (cs.map f).map Tree.tag = cs.map Tree.tag := by
        rw [List.map_map]
        exact List.map_congr_left fun c hc => (hf c hc).2.mergeEquiv.tag_eq
      refine ⟨.branch x shape (cs.map f), .branch (size_absorb s id ▸ hx) ?_
        (List.forall_mem_map.mpr fun c hc => (hf c hc).1), .branch x shape fun c hc => (hf c hc).2⟩
      rw [content_absorb_of_ne heq, hcontent, htags]

/-- A flat tree is left alone: at none of its nodes there is anything to merge. -/
theorem Holds.absorb_of_isFlat (h : s.Holds t) (hflat : t.isFlat = true) (id : NodeId) :
    (s.absorb id).Holds t := by
  induction h with
  | @literal x l hx hcontent =>
    exact .literal (size_absorb s id ▸ hx) (content_absorb_literal id hcontent)
  | @branch x shape cs hx hcontent hcs ih =>
    obtain ⟨habsorbs, hflats⟩ := Tree.isFlat_branch_iff.mp hflat
    by_cases heq : x = id
    · subst heq
      have hmerged := (Holds.branch hx hcontent hcs).absorb
      rwa [Tree.Shape.merge_of_absorbs_eq_false habsorbs] at hmerged
    · refine .branch (size_absorb s id ▸ hx) ?_ fun c hc => ih c hc (hflats c hc)
      rw [content_absorb_of_ne heq, hcontent]

/-- What flattening below some nodes does to a store: all trees in it are condensed, flat ones are
left alone, those at the given nodes are flattened, and no node outside of them is written. -/
structure Settles (s s' : Store) (ids : List NodeId) : Prop where
  exists_condenses : ∀ t, s.Holds t → ∃ u, s'.Holds u ∧ t.Condenses u
  holds_of_isFlat : ∀ t, s.Holds t → t.isFlat = true → s'.Holds t
  holds_flatten : ∀ t, s.Holds t → t.tag ∈ ids → s'.Holds t.flatten
  content_eq : ∀ id, (∀ t, s.Holds t → t.tag ∈ ids → id ∉ t.tags) →
    (s'.cell id).content = (s.cell id).content

/-- Below a node there is a tree of less than the given height. -/
def IsShallow (s : Store) (depth : Nat) (id : NodeId) : Prop :=
  ∃ t, s.Holds t ∧ t.tag = id ∧ t.height < depth

theorem settles_nil (s : Store) : Settles s s [] :=
  ⟨fun t ht => ⟨t, ht, .refl t⟩, fun _ ht _ => ht, nofun, fun _ _ => rfl⟩

/-- Trees get no higher when others are flattened. -/
theorem Settles.isShallow {ids : List NodeId} (h : Settles s s' ids) {depth : Nat} {id : NodeId}
    (hid : s.IsShallow depth id) : s'.IsShallow depth id := by
  obtain ⟨t, ht, rfl, hdepth⟩ := hid
  obtain ⟨u, hu, hcondenses⟩ := h.exists_condenses t ht
  exact ⟨u, hu, hcondenses.mergeEquiv.tag_eq, Nat.lt_of_le_of_lt hcondenses.height_le hdepth⟩

/-- Nodes may be settled one after the other. -/
theorem Settles.cons {s₁ : Store} {depth : Nat} {id : NodeId} {ids : List NodeId}
    (hshallow : ∀ x ∈ ids, s.IsShallow depth x) (hfirst : Settles s s₁ [id])
    (hrest : Settles s₁ s' ids) : Settles s s' (id :: ids) := by
  constructor
  · intro t ht
    obtain ⟨u, hu, htu⟩ := hfirst.exists_condenses t ht
    obtain ⟨v, hv, huv⟩ := hrest.exists_condenses u hu
    exact ⟨v, hv, htu.trans huv⟩
  · intro t ht hflat
    exact hrest.holds_of_isFlat t (hfirst.holds_of_isFlat t ht hflat) hflat
  · intro t ht htag
    obtain heq | hmem := List.mem_cons.mp htag
    · have hflattened := hfirst.holds_flatten t ht (heq ▸ List.mem_cons_self)
      exact hrest.holds_of_isFlat _ hflattened t.isFlat_flatten
    · obtain ⟨u, hu, hcondenses⟩ := hfirst.exists_condenses t ht
      have hflattened := hrest.holds_flatten u hu (hcondenses.mergeEquiv.tag_eq ▸ hmem)
      rwa [hcondenses.mergeEquiv.flatten_eq] at hflattened
  · intro x hout
    rw [hrest.content_eq x, hfirst.content_eq x]
    · intro t ht htag
      exact hout t ht (List.mem_cons.mpr (.inl (List.mem_singleton.mp htag)))
    · -- The tree at a later node has been condensed, so what it shows now it showed before.
      intro u hu htag hx
      obtain ⟨t, ht, heq, -⟩ := hshallow u.tag htag
      obtain ⟨u', hu', hcondenses⟩ := hfirst.exists_condenses t ht
      obtain rfl := hu'.eq_of_tag_eq hu (hcondenses.mergeEquiv.tag_eq.trans heq)
      exact hout t ht (List.mem_cons_of_mem id (heq ▸ htag)) (hcondenses.tags_subset hx)

/-- What settles one node settles a list of them when it is done to each. -/
theorem settles_foldl {f : Store → NodeId → Store} {depth : Nat}
    (hf : ∀ s id, IsShallow s depth id → Settles s (f s id) [id]) {ids : List NodeId}
    (hshallow : ∀ id ∈ ids, s.IsShallow depth id) : Settles s (ids.foldl f s) ids := by
  induction ids generalizing s with
  | nil => exact settles_nil s
  | cons id ids ih =>
    obtain ⟨hid, hids⟩ := List.forall_mem_cons.mp hshallow
    have hfirst := hf s id hid
    exact .cons hids hfirst (ih fun x hx => hfirst.isShallow (hids x hx))

/-- Once the trees below a node are settled, merging its children settles the node. -/
theorem Settles.absorb (h : s.Holds t) (hs : Settles s s' (t.children.map Tree.tag)) :
    Settles s (s'.absorb t.tag) [t.tag] := by
  constructor
  · intro u hu
    obtain ⟨v, hv, huv⟩ := hs.exists_condenses u hu
    obtain ⟨w, hw, hvw⟩ := hv.exists_condenses_absorb t.tag
    exact ⟨w, hw, huv.trans hvw⟩
  · intro u hu hflat
    exact (hs.holds_of_isFlat u hu hflat).absorb_of_isFlat hflat t.tag
  · intro u hu htag
    obtain rfl := hu.eq_of_tag_eq h (List.mem_singleton.mp htag)
    cases h with
    | literal hid hcontent =>
      rw [Tree.flatten_literal]
      exact (hs.holds_of_isFlat _ hu (by simp [Tree.isFlat])).absorb_of_isFlat
        (by simp [Tree.isFlat]) _
    | @branch id shape cs hid hcontent hcs =>
      have hsame : (s'.cell id).content = (s.cell id).content := by
        refine hs.content_eq id fun c hc hlisted => ?_
        obtain ⟨d, hd, heq⟩ := List.mem_map.mp hlisted
        obtain rfl := (hcs d hd).eq_of_tag_eq hc heq
        exact hu.notMem_tags_of_mem hd
      have hflattened : s'.Holds (.branch id shape (cs.map Tree.flatten)) := by
        refine .branch ?_ ?_ (List.forall_mem_map.mpr fun c hc => ?_)
        · obtain ⟨v, hv, hcondenses⟩ := hs.exists_condenses _ hu
          have htop : v.tag = id := hcondenses.mergeEquiv.tag_eq
          exact htop ▸ hv.lt_size v.tag_mem_tags
        · rw [hsame, hcontent, List.map_map]
          simp [Function.comp_def]
        · exact hs.holds_flatten c (hcs c hc) (List.mem_map_of_mem hc)
      rw [Tree.flatten_branch]
      exact hflattened.absorb
  · intro x hout
    have hx := hout t h List.mem_cons_self
    have hne : x ≠ t.tag := by
      rintro rfl
      exact hx t.tag_mem_tags
    rw [content_absorb_of_ne hne]
    refine hs.content_eq x fun c hc hlisted hmem => ?_
    obtain ⟨d, hd, heq⟩ := List.mem_map.mp hlisted
    obtain rfl := (h.of_mem_children hd).eq_of_tag_eq hc heq
    cases t with
    | literal id l => cases hd
    | branch id shape cs => exact hx (Tree.tags_subset_of_mem hd hmem)

/-- Flattening below a node settles it, if it goes as deep as the tree that stands there. -/
theorem settles_flattenWithin {depth : Nat} {id : NodeId} (h : s.IsShallow depth id) :
    Settles s (s.flattenWithin depth id) [id] := by
  induction depth generalizing s id with
  | zero =>
    obtain ⟨t, -, -, hdepth⟩ := h
    exact absurd hdepth (Nat.not_lt_zero _)
  | succ depth ih =>
    obtain ⟨t, ht, rfl, hdepth⟩ := h
    rw [flattenWithin, ht.children_tag]
    refine .absorb ht (settles_foldl (fun s id hid => ih hid) fun x hx => ?_)
    obtain ⟨c, hc, rfl⟩ := List.mem_map.mp hx
    refine ⟨c, ht.of_mem_children hc, rfl, ?_⟩
    cases t with
    | literal id l => cases hc
    | branch id shape cs =>
      exact Nat.lt_of_lt_of_le (Tree.height_lt_of_mem hc) (Nat.le_of_lt_succ hdepth)

/-- Flattening in place flattens the tree that stands below a node, whether or not nodes of it stand
in several places. -/
theorem Holds.flatten (h : s.Holds t) : (s.flatten t.tag).Holds t.flatten :=
  (settles_flattenWithin ⟨t, h, rfl, h.height_lt_size⟩).holds_flatten t h List.mem_cons_self

end Store

/-- Flattening computes the normal form of a tree under merging. The flattened tree is the same as
the tree, it is flat, and no other flat tree is the same; literals and groups stay, each in its
group, in their order. Two trees are the same exactly if they have one normal form. In a store,
flattening in place puts the normal form of the tree below a node there, also where nodes stand in
several places. -/
theorem flatten_normal_form {α : Type} :
    (∀ t : Tree α, t.flatten.MergeEquiv t ∧ t.flatten.isFlat = true ∧
      t.flatten.flatten = t.flatten ∧ t.flatten.atoms = t.atoms ∧
      ∀ u : Tree α, u.MergeEquiv t → u.isFlat = true → u = t.flatten) ∧
    (∀ t u : Tree α, t.MergeEquiv u ↔ t.flatten = u.flatten) ∧
    ∀ (s : Store) (t : Tree NodeId), s.Holds t → (s.flatten t.tag).tree t.tag = t.flatten := by
  refine ⟨fun t => ?_, fun t u => Tree.mergeEquiv_iff_flatten_eq, fun s t ht => ?_⟩
  · exact ⟨t.mergeEquiv_flatten, t.isFlat_flatten, t.flatten_flatten, t.atoms_flatten,
      fun u hu hflat => hu.eq_flatten hflat⟩
  · have hflattened := ht.flatten.tree_eq
    rwa [Tree.tag_flatten] at hflattened

/-- A sum stands twice in a sum, beside a group that holds it once more. -/
theorem flatten_normal_form_shared_sum :
    let a : Literal := ⟨['a'], rfl⟩
    let s : Store := ⟨#[{ content := .literal a }, { content := .branch (.chain .plus) [0, 0] },
      { content := .branch .group [1] }, { content := .branch (.chain .plus) [1, 2, 1] }]⟩
    let sum : Tree NodeId := .branch 1 (.chain .plus) [.literal 0 a, .literal 0 a]
    let t : Tree NodeId := .branch 3 (.chain .plus) [sum, .branch 2 .group [sum], sum]
    s.Holds t ∧ (s.flatten 3).tree 3 = .branch 3 (.chain .plus) [.literal 0 a, .literal 0 a,
      .branch 2 .group [sum], .literal 0 a, .literal 0 a] := by
  intro a s sum t
  have hliteral : s.Holds (.literal 0 a) := .literal (by decide) rfl
  have hsum : s.Holds sum := .branch (by decide) rfl (by simp [hliteral])
  have hgroup : s.Holds (.branch 2 .group [sum]) := .branch (by decide) rfl (by simp [hsum])
  have ht : s.Holds t := .branch (by decide) rfl (by simp [hsum, hgroup])
  exact ⟨ht, (@flatten_normal_form NodeId).2.2 s t ht⟩

end Rearrange
