import Mathlib.Data.List.Forall2
import Rearrange.Proofs.Tree.Flatten

namespace Rearrange

variable {α : Type}

/-- Children are merged one by one. -/
theorem Shape.merge_append (s : Shape) (cs ds : List (Tree α)) :
    s.merge (cs ++ ds) = s.merge cs ++ s.merge ds := by
  cases s with
  | group => rfl
  | chain op => exact List.flatMap_append

namespace Tree

/-- The smallest congruence that identifies a chain that has a chain of its own operator as a child
with the chain that has the operands of the child in its place. -/
inductive MergeEquiv : Tree α → Tree α → Prop where
  | refl (t : Tree α) : MergeEquiv t t
  | symm {t u : Tree α} (h : MergeEquiv t u) : MergeEquiv u t
  | trans {t u v : Tree α} (htu : MergeEquiv t u) (huv : MergeEquiv u v) : MergeEquiv t v
  | child (a : α) (s : Shape) (before : List (Tree α)) {c d : Tree α} (after : List (Tree α))
      (h : MergeEquiv c d) :
      MergeEquiv (.branch a s (before ++ c :: after)) (.branch a s (before ++ d :: after))
  | merge (a b : α) (op : Operator) (before cs after : List (Tree α)) :
      MergeEquiv (.branch a (.chain op) (before ++ .branch b (.chain op) cs :: after))
        (.branch a (.chain op) (before ++ cs ++ after))

mutual
/-- The literals and groups of a tree from left to right, each group with the literals and groups
inside it. Chains are passed over. -/
def atoms : Tree α → List (Tree α)
  | literal a l => [literal a l]
  | branch a .group cs => [branch a .group (atomsAll cs)]
  | branch _ (.chain _) cs => atomsAll cs

/-- The literals and groups of several trees from left to right. -/
def atomsAll : List (Tree α) → List (Tree α)
  | [] => []
  | c :: cs => c.atoms ++ atomsAll cs
end

private theorem atomsAll_eq_flatMap (cs : List (Tree α)) : atomsAll cs = cs.flatMap atoms := by
  induction cs with
  | nil => rfl
  | cons c cs ih => simp [atomsAll, ih]

/-- A group is one atom. -/
theorem atoms_group (a : α) (cs : List (Tree α)) :
    (branch a .group cs).atoms = [branch a .group (cs.flatMap atoms)] := by
  rw [atoms, atomsAll_eq_flatMap]

/-- The atoms of a chain are those of its operands. -/
theorem atoms_chain (a : α) (op : Operator) (cs : List (Tree α)) :
    (branch a (.chain op) cs).atoms = cs.flatMap atoms := by
  rw [atoms, atomsAll_eq_flatMap]

namespace MergeEquiv

variable {t u : Tree α}

/-- Merging keeps the top. -/
theorem tag_eq (h : MergeEquiv t u) : t.tag = u.tag := by
  induction h with
  | refl t => rfl
  | symm _ ih => exact ih.symm
  | trans _ _ ihtu ihuv => exact ihtu.trans ihuv
  | child a s before after _ ih => rfl
  | merge a b op before cs after => rfl

/-- A branch is the same as one whose children are the same. -/
theorem of_forall₂ (a : α) (s : Shape) {cs ds : List (Tree α)}
    (h : List.Forall₂ MergeEquiv cs ds) : MergeEquiv (.branch a s cs) (.branch a s ds) := by
  suffices hafter : ∀ before,
      MergeEquiv (.branch a s (before ++ cs)) (.branch a s (before ++ ds)) from hafter []
  induction h with
  | nil => exact fun before => .refl _
  | @cons c d cs ds hcd _ ih =>
    intro before
    have hrest := ih (before ++ [d])
    rw [List.append_assoc, List.append_assoc] at hrest
    exact .trans (.child a s before cs hcd) hrest

/-- A chain is the same as the one that has merged all its children that it can. -/
theorem branch_merge (a : α) (s : Shape) (cs : List (Tree α)) :
    MergeEquiv (.branch a s (s.merge cs)) (.branch a s cs) := by
  cases s with
  | group => exact .refl _
  | chain op =>
    suffices hafter : ∀ before, MergeEquiv (.branch a (.chain op) (before ++ cs))
        (.branch a (.chain op) (before ++ (Shape.chain op).merge cs)) from (hafter []).symm
    induction cs with
    | nil => exact fun before => .refl _
    | cons c cs ih =>
      intro before
      rw [Shape.merge, List.flatMap_cons]
      by_cases hkind : c.kind = .branch (.chain op)
      · cases c with
        | literal b l => simp [kind] at hkind
        | branch b s ds =>
          obtain rfl : s = .chain op := by simpa [kind] using hkind
          rw [Operator.inline_chain, ← List.append_assoc]
          exact .trans (.merge a b op before ds cs) (ih (before ++ ds))
      · rw [Operator.inline_of_kind_ne hkind, ← List.append_assoc]
        have hrest := ih (before ++ [c])
        rwa [List.append_assoc, List.singleton_append] at hrest

/-- Trees that are the same up to merging have the same flattened tree: what a chain merges from a
child that has been flattened is what that child has merged itself. -/
theorem flatten_eq (h : MergeEquiv t u) : t.flatten = u.flatten := by
  induction h with
  | refl t => rfl
  | symm _ ih => exact ih.symm
  | trans _ _ ihtu ihuv => exact ihtu.trans ihuv
  | child a s before after _ ih =>
    rw [flatten_branch, flatten_branch, List.map_append, List.map_append, List.map_cons,
      List.map_cons, ih]
  | merge a b op before cs after =>
    have hinner : (Shape.chain op).merge [(branch b (.chain op) cs).flatten] =
        (Shape.chain op).merge (cs.map flatten) := by
      rw [flatten_branch, Shape.merge, List.flatMap_singleton, Operator.inline_chain]
    rw [flatten_branch, flatten_branch, ← List.singleton_append]
    simp only [List.map_append, Shape.merge_append, List.map_singleton, hinner, List.append_assoc]

/-- Merging keeps all literals and groups, in their order and in the groups that they are in. -/
theorem atoms_eq (h : MergeEquiv t u) : t.atoms = u.atoms := by
  induction h with
  | refl t => rfl
  | symm _ ih => exact ih.symm
  | trans _ _ ihtu ihuv => exact ihtu.trans ihuv
  | child a s before after _ ih =>
    cases s with
    | group => rw [atoms_group, atoms_group, List.flatMap_append, List.flatMap_append,
        List.flatMap_cons, List.flatMap_cons, ih]
    | chain op => rw [atoms_chain, atoms_chain, List.flatMap_append, List.flatMap_append,
        List.flatMap_cons, List.flatMap_cons, ih]
  | merge a b op before cs after =>
    simp only [atoms_chain, List.flatMap_append, List.flatMap_cons, List.append_assoc]

end MergeEquiv

/-- A flattened tree is the same as the tree up to merging. -/
theorem mergeEquiv_flatten (t : Tree α) : MergeEquiv t.flatten t := by
  induction t with
  | literal a l => exact flatten_literal a l ▸ .refl _
  | branch a s cs ih =>
    rw [flatten_branch]
    refine .trans (.branch_merge a s _) (.of_forall₂ a s ?_)
    exact List.forall₂_map_left_iff.mpr (List.forall₂_same.mpr ih)

/-- Trees are the same up to merging if and only if they are flattened to one tree. -/
theorem mergeEquiv_iff_flatten_eq {t u : Tree α} : MergeEquiv t u ↔ t.flatten = u.flatten := by
  constructor
  · exact fun h => h.flatten_eq
  · intro h
    exact .trans (h ▸ (mergeEquiv_flatten t).symm) (mergeEquiv_flatten u)

/-- Flattening twice is flattening once. -/
theorem flatten_flatten (t : Tree α) : t.flatten.flatten = t.flatten :=
  flatten_eq_self t.isFlat_flatten

/-- Flattening keeps the atoms in their order. -/
theorem atoms_flatten (t : Tree α) : t.flatten.atoms = t.atoms :=
  t.mergeEquiv_flatten.atoms_eq

/-- A flat tree that is the same as another one up to merging is that one flattened. -/
theorem MergeEquiv.eq_flatten {t u : Tree α} (h : MergeEquiv u t) (hflat : u.isFlat = true) :
    u = t.flatten := by
  rw [← h.flatten_eq, flatten_eq_self hflat]

end Tree

end Rearrange
