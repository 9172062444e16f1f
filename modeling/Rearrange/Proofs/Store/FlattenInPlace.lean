import Rearrange.Proofs.Store.Flatten
import Rearrange.Proofs.Store.Path
import Rearrange.Proofs.Store.Plant

namespace Rearrange

namespace Tree

variable {α : Type}

theorem tags_eq_cons (t : Tree α) : t.tags = t.tag :: t.children.flatMap tags := by
  cases t with
  | literal a l => rw [tags_literal, tag, children, List.flatMap_nil]
  | branch a s cs => rw [tags_branch, tag, children]

@[simp] theorem kind_flatten (t : Tree α) : t.flatten.kind = t.kind := by
  cases t <;> simp [kind]

end Tree

namespace Shape

variable {α : Type}

/-- Merging goes operand by operand. -/
theorem merge_eq_flatMap (s : Shape) (cs : List (Tree α)) :
    s.merge cs = cs.flatMap fun c => s.merge [c] := by
  cases s with
  | group => exact (List.flatMap_singleton' cs).symm
  | chain op => simp only [merge, List.flatMap_singleton]

/-- A child that is merged drops its own node and keeps those below. -/
theorem tags_merge_singleton (s : Shape) (t : Tree α) :
    (s.merge [t]).flatMap Tree.tags =
      (if t.kind = .branch s ∧ s ≠ .group then [] else [t.tag]) ++
        t.children.flatMap Tree.tags := by
  cases s with
  | group =>
    rw [merge, List.flatMap_singleton, if_neg fun h => h.2 rfl, t.tags_eq_cons,
      List.singleton_append]
  | chain op =>
    rw [merge, List.flatMap_singleton]
    by_cases hkind : t.kind = .branch (.chain op)
    · cases t with
      | literal a l => cases hkind
      | branch a r cs =>
        obtain rfl : r = .chain op := by simpa [Tree.kind] using hkind
        rw [Operator.inline_chain, if_pos ⟨rfl, Shape.noConfusion⟩, List.nil_append, Tree.children]
    · rw [Operator.inline_of_kind_ne hkind, List.flatMap_singleton, if_neg fun h => hkind h.1,
        t.tags_eq_cons, List.singleton_append]

end Shape

private theorem Content.withChildren_children (c : Content) : c.withChildren c.children = c := by
  cases c <;> rfl

private theorem Content.withChildren_withChildren (c : Content) (cs ds : List NodeId) :
    (c.withChildren cs).withChildren ds = c.withChildren ds := by
  cases c <;> rfl

namespace Store

/-- Whether a node is a chain that stands below a chain of the same operator. -/
def isMerged (s : Store) (id : NodeId) : Bool :=
  match s.kind id with
  | .branch (.chain _) => (s.parent id).any fun p => s.kind p = s.kind id
  | _ => false

/-- The nodes of one store are those of the other, each with its kind, its text and its handle. -/
structure SameNodes (s s' : Store) : Prop where
  size_eq : s'.size = s.size
  content_eq : ∀ n, (s'.cell n).content = (s.cell n).content.withChildren (s'.children n)
  handle_eq : ∀ n, s'.handle n = s.handle n

/-- What flattening in place does to a node of a tree and to everything else in the store. The nodes
that remain below the node are the ones that were there, but for the chains below a chain of the
same operator. Each is listed once, by the node that it remembers as its parent. -/
structure FlattenedAt (s s' : Store) (id : NodeId) : Prop where
  sameNodes : s.SameNodes s'
  parent_eq : s'.parent id = s.parent id
  tree_eq : s'.tree id = (s.tree id).flatten
  walk_eq : s'.walk id = (s.walk id).filter fun n => n = id || !s.isMerged n
  nodup_walk : (s'.walk id).Nodup
  listed_perm : (id :: (s'.walk id).flatMap s'.children).Perm (s'.walk id)
  linked : ∀ n ∈ s'.walk id, ∀ c ∈ s'.children n, s'.parent c = some n
  cell_eq : ∀ n ∉ s.walk id, s'.cell n = s.cell n

variable {s s' s'' : Store} {t : Tree NodeId}

theorem SameNodes.refl (s : Store) : s.SameNodes s :=
  ⟨rfl, fun n => (s.cell n).content.withChildren_children.symm, fun _ => rfl⟩

theorem SameNodes.trans (h : s.SameNodes s') (h' : s'.SameNodes s'') : s.SameNodes s'' := by
  refine ⟨h'.size_eq.trans h.size_eq, fun n => ?_, fun n => (h'.handle_eq n).trans (h.handle_eq n)⟩
  rw [h'.content_eq, h.content_eq, Content.withChildren_withChildren]

theorem sameNodes_relink (s : Store) (id : NodeId) (cs : List NodeId) :
    s.SameNodes (s.relink id cs) := by
  refine ⟨size_relink s id cs, fun n => ?_, handle_relink s id cs⟩
  rw [Store.children, relink, content_adopt, cell_modify]
  split
  · cases (s.cell n).content <;> rfl
  · rw [Content.withChildren_children]

theorem sameNodes_absorb (s : Store) (id : NodeId) : s.SameNodes (s.absorb id) := by
  rw [absorb]
  split
  · exact sameNodes_relink s id _
  · exact .refl s

/-- Flattening changes no kind, text or handle. -/
theorem sameNodes_flattenWithin (depth : Nat) (s : Store) (id : NodeId) :
    s.SameNodes (s.flattenWithin depth id) := by
  induction depth generalizing s id with
  | zero => exact .refl s
  | succ depth ih =>
    have hall : ∀ (cs : List NodeId) (s : Store),
        s.SameNodes (cs.foldl (flattenWithin depth) s) := by
      intro cs
      induction cs with
      | nil => exact .refl
      | cons c cs ihcs => exact fun s => (ih s c).trans (ihcs _)
    rw [flattenWithin]
    exact (hall (s.children id) s).trans (sameNodes_absorb _ id)

/-- A node is merged into a parent with the same operator. -/
theorem isMerged_eq {id p : NodeId} {above : Shape} (hparent : s.parent id = some p)
    (hkind : s.kind p = .branch above) :
    s.isMerged id = true ↔ s.kind id = .branch above ∧ above ≠ .group := by
  rw [isMerged]
  split
  · next op heq =>
    simp only [hparent, hkind, heq, Option.any_some, decide_eq_true_eq, Kind.branch.injEq]
    constructor
    · rintro rfl
      exact ⟨rfl, nofun⟩
    · exact fun h => h.1.symm
  · next hother =>
    refine iff_of_false nofun fun h => ?_
    cases above with
    | group => exact h.2 rfl
    | chain op => exact hother op h.1

/-- Below the top of a tree flattening leaves everything but the chains that stand below a chain of
the same operator. -/
theorem Owns.tags_children_flatten (h : s.Owns t) :
    t.flatten.children.flatMap Tree.tags =
      (t.children.flatMap Tree.tags).filter fun n => !s.isMerged n := by
  induction t with
  | literal a l => rw [Tree.flatten_literal, Tree.children, List.flatMap_nil, List.filter_nil]
  | branch a shape cs ih =>
    rw [Tree.flatten_branch, Tree.children, Tree.children, Shape.merge_eq_flatMap, List.flatMap_map,
      List.flatMap_assoc, List.filter_flatMap]
    refine List.flatMap_congr fun c hc => ?_
    have hparent : s.parent c.tag = some a := by
      apply h.linked a (Tree.tag_mem_tags (.branch a shape cs))
      rw [h.holds.children_eq]
      exact List.mem_map_of_mem hc
    have hmerged := isMerged_eq hparent h.holds.kind_eq
    rw [(h.of_mem hc).holds.kind_eq] at hmerged
    rw [Shape.tags_merge_singleton, Tree.kind_flatten, Tree.tag_flatten, ih c hc (h.of_mem hc),
      c.tags_eq_cons, List.filter_cons]
    by_cases hkind : c.kind = .branch shape ∧ shape ≠ .group
    · rw [if_pos hkind, hmerged.mpr hkind, List.nil_append]
      rfl
    · rw [if_neg hkind, Bool.eq_false_iff.mpr (mt hmerged.mp hkind), List.singleton_append]
      rfl

/-- The top of a tree is never merged away. -/
theorem Owns.tags_flatten (h : s.Owns t) :
    t.flatten.tags = t.tags.filter fun n => n = t.tag || !s.isMerged n := by
  have htop := h.tag_notMem_tail
  rw [t.tags_eq_cons, List.tail_cons] at htop
  rw [t.flatten.tags_eq_cons, Tree.tag_flatten, h.tags_children_flatten, t.tags_eq_cons,
    List.filter_cons_of_pos (by simp)]
  congr 1
  refine List.filter_congr fun n hn => ?_
  have hne : n ≠ t.tag := fun heq => htop (heq ▸ hn)
  rw [decide_eq_false hne, Bool.false_or]

/-- Flattening a tree that the store owns is flattening it in place. -/
theorem Owns.flattenedAt (h : s.Owns t) : s.FlattenedAt (s.flatten t.tag) t.tag := by
  have hflattens := flattens_flatten h
  have howns := hflattens.owns
  have hwalk := howns.walk_eq
  have htree := howns.tree_eq
  have hlisted := howns.holds.listed_perm
  rw [t.tag_flatten] at hwalk htree hlisted
  constructor
  · exact sameNodes_flattenWithin s.size s t.tag
  · exact hflattens.parent_eq
  · rw [htree, h.tree_eq]
  · rw [hwalk, h.walk_eq, h.tags_flatten]
  · exact hwalk ▸ howns.nodup
  · exact hwalk ▸ hlisted
  · exact hwalk ▸ howns.linked
  · intro n hn
    rw [h.walk_eq] at hn
    exact hflattens.cell_eq n hn

/-- Flattening in place at a node of a tree gives the node back. It merges the chains below the node
that stand below a chain of the same operator, and leaves everything else as it was but for the
lists of children and the parents below the node. -/
theorem flattened_in_place (h : s.Owns t) {id : NodeId} (hid : id ∈ t.tags) :
    (s.flattened id).1 = id ∧ s.FlattenedAt (s.flattened id).2 id := by
  obtain ⟨place, u, hu, rfl⟩ := Tree.exists_subtreeAt?_of_mem_tags hid
  exact ⟨rfl, (h.subtreeAt? hu).flattenedAt⟩

/-- A sum below a product is flattened. Two sums collapse into it level by level, so the parent of
the number in the inner one is written twice; the sum in the group is flattened by itself. -/
theorem flattened_in_place_nested_sums :
    let x : Expr := .literal () ⟨['x'], rfl⟩
    let one : Expr := .literal () ⟨['1'], rfl⟩
    let sum : List Expr → Expr := .branch () (.chain .plus)
    let planted : Tree (Option Handle) := (Tree.branch () (.chain .times)
      [sum [x, sum [sum [one], x], .branch () .group [sum [sum [x, one]]]], x]).map fun _ => none
    let s := Store.empty.plant planted
    (s.flattened 1).2.walk 1 = [1, 2, 5, 6, 7, 8, 10, 11] ∧
      [1, 5, 10].map (s.flattened 1).2.parent = [some 0, some 1, some 8] ∧
      (s.flattened 1).1 = 1 ∧ s.FlattenedAt (s.flattened 1).2 1 := by
  intro x one sum planted s
  have howns : s.Owns (planted.numbered 0) := owns_plant Store.empty planted
  have hmem : 1 ∈ (planted.numbered 0).tags := by decide +kernel
  exact ⟨by decide +kernel, by decide +kernel, flattened_in_place howns hmem⟩

end Store

end Rearrange
