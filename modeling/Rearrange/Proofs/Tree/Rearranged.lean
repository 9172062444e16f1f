import Rearrange.Proofs.Tree.Canonical

namespace Rearrange

variable {α β : Type}

/-- A shape absorbs none of its children if it would absorb none of them alone. -/
private theorem Shape.absorbs_eq_false_iff {s : Shape} {cs : List (Tree α)} :
    s.absorbs cs = false ↔ ∀ c ∈ cs, s.absorbs [c] = false := by
  cases s with
  | group => simp [Shape.absorbs]
  | chain op => simp [Shape.absorbs]

/-- Whether a child is absorbed depends on its kind only. -/
private theorem Shape.absorbs_singleton_congr {s : Shape} {c d : Tree α} (h : c.kind = d.kind) :
    s.absorbs [c] = s.absorbs [d] := by
  cases s with
  | group => rfl
  | chain op => simp [Shape.absorbs, h]

namespace Tree

/-- The second tree is the first with the children of some nodes in another order. -/
inductive Rearranged : Tree α → Tree α → Prop where
  | refl (t : Tree α) : Rearranged t t
  | trans {t u v : Tree α} (htu : Rearranged t u) (huv : Rearranged u v) : Rearranged t v
  | perm (a : α) (s : Shape) {cs ds : List (Tree α)} (h : cs.Perm ds) :
      Rearranged (.branch a s cs) (.branch a s ds)
  | child (a : α) (s : Shape) (before : List (Tree α)) {c d : Tree α} (after : List (Tree α))
      (h : Rearranged c d) :
      Rearranged (.branch a s (before ++ c :: after)) (.branch a s (before ++ d :: after))

namespace Rearranged

variable {t u : Tree α}

/-- A rearrangement keeps the kind. -/
theorem kind_eq (h : Rearranged t u) : t.kind = u.kind := by
  induction h with
  | refl t => rfl
  | trans _ _ ihtu ihuv => exact ihtu.trans ihuv
  | perm a s h => rfl
  | child a s before after _ ih => rfl

/-- A rearrangement has the same nodes. -/
theorem tags_perm (h : Rearranged t u) : t.tags.Perm u.tags := by
  induction h with
  | refl t => exact .refl _
  | trans _ _ ihtu ihuv => exact ihtu.trans ihuv
  | perm a s h =>
    rw [tags_branch, tags_branch]
    exact (h.flatMap_right tags).cons a
  | child a s before after _ ih =>
    simp only [tags_branch, List.flatMap_append, List.flatMap_cons]
    exact ((ih.append_right _).append_left _).cons a

/-- A tree is rearranged if each of its children is. -/
theorem of_forall₂ (a : α) (s : Shape) {cs ds : List (Tree α)}
    (h : List.Forall₂ Rearranged cs ds) : Rearranged (.branch a s cs) (.branch a s ds) := by
  suffices hafter : ∀ before, Rearranged (.branch a s (before ++ cs)) (.branch a s (before ++ ds))
    from hafter []
  induction h with
  | nil => exact fun before => .refl _
  | @cons c d cs ds hcd _ ih =>
    intro before
    have hrest := ih (before ++ [d])
    rw [List.append_assoc, List.append_assoc] at hrest
    exact .trans (.child a s before cs hcd) hrest

/-- A rearrangement of a flat tree is flat. -/
theorem isFlat (h : Rearranged t u) (hflat : t.isFlat = true) : u.isFlat = true := by
  induction h with
  | refl t => exact hflat
  | trans _ _ ihtu ihuv => exact ihuv (ihtu hflat)
  | perm a s h =>
    rw [isFlat_branch_iff, Shape.absorbs_eq_false_iff] at hflat ⊢
    exact ⟨fun d hd => hflat.1 d (h.mem_iff.mpr hd), fun d hd => hflat.2 d (h.mem_iff.mpr hd)⟩
  | child a s before after h ih =>
    rw [isFlat_branch_iff, Shape.absorbs_eq_false_iff] at hflat ⊢
    rw [List.forall_mem_append, List.forall_mem_cons] at hflat ⊢
    rw [List.forall_mem_append, List.forall_mem_cons] at hflat ⊢
    obtain ⟨⟨hbefore, hc, hafter⟩, hflatBefore, hflatC, hflatAfter⟩ := hflat
    rw [Shape.absorbs_singleton_congr h.kind_eq] at hc
    exact ⟨⟨hbefore, hc, hafter⟩, hflatBefore, ih hflatC, hflatAfter⟩

/-- A rearrangement of a canonical tree is canonical. -/
theorem isCanonical (h : Rearranged t u) (hcanonical : t.IsCanonical) : u.IsCanonical := by
  induction h with
  | refl t => exact hcanonical
  | trans _ _ ihtu ihuv => exact ihuv (ihtu hcanonical)
  | perm a s h =>
    cases s with
    | group =>
      obtain ⟨c, rfl, hc⟩ := isCanonical_group_iff.mp hcanonical
      obtain rfl := List.perm_singleton.mp h.symm
      exact hcanonical
    | chain op =>
      obtain ⟨hlength, hcs⟩ := isCanonical_chain_iff.mp hcanonical
      exact isCanonical_chain_iff.mpr ⟨h.length_eq ▸ hlength, fun d hd => hcs d (h.mem_iff.mpr hd)⟩
  | child a s before after h ih =>
    cases s with
    | group =>
      obtain ⟨e, hsingle, he⟩ := isCanonical_group_iff.mp hcanonical
      obtain ⟨rfl, hrest⟩ | ⟨_, hnil⟩ := List.append_eq_singleton_iff.mp hsingle
      · obtain ⟨rfl, rfl⟩ := List.cons_eq_cons.mp hrest
        exact .group a (ih he)
      · exact absurd hnil (List.cons_ne_nil _ _)
    | chain op =>
      rw [isCanonical_chain_iff, List.forall_mem_append, List.forall_mem_cons] at hcanonical ⊢
      obtain ⟨hlength, hbefore, ⟨hadmits, hc⟩, hafter⟩ := hcanonical
      refine ⟨?_, hbefore, ⟨h.kind_eq ▸ hadmits, ih hc⟩, hafter⟩
      simpa using hlength

end Rearranged

end Tree

end Rearrange
