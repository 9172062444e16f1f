import Rearrange.Proofs.Tree.Basic

namespace Rearrange

variable {α : Type}

/-- Only a chain of the operator gives way to its operands. -/
theorem Operator.inline_of_kind_ne {op : Operator} {t : Tree α}
    (h : t.kind ≠ .branch (.chain op)) : op.inline t = [t] := by
  cases t with
  | literal a l => rfl
  | branch a s cs =>
    cases s with
    | group => rfl
    | chain op' => exact if_neg fun hop => h (by rw [Tree.kind, hop])

/-- A chain of the operator gives way to its operands. -/
theorem Operator.inline_chain (op : Operator) (a : α) (cs : List (Tree α)) :
    op.inline (.branch a (.chain op) cs) = cs :=
  if_pos rfl

/-- A chain absorbs nothing exactly if no child is a chain of its operator. -/
theorem Shape.absorbs_chain_eq_false_iff {op : Operator} {cs : List (Tree α)} :
    (Shape.chain op).absorbs cs = false ↔ ∀ c ∈ cs, c.kind ≠ .branch (.chain op) := by
  simp [Shape.absorbs]

namespace Tree

@[simp] theorem flatten_literal (a : α) (l : Literal) : (literal a l).flatten = literal a l := by
  rw [flatten]

/-- A branch is flattened after its children. -/
@[simp] theorem flatten_branch (a : α) (s : Shape) (cs : List (Tree α)) :
    (branch a s cs).flatten = branch a s (s.merge (cs.map flatten)) := by
  rw [flatten, flattenAll_eq_map]

/-- Flattening keeps the top. -/
@[simp] theorem tag_flatten (t : Tree α) : t.flatten.tag = t.tag := by
  cases t <;> simp [tag]

/-- A branch is flat if it absorbs no child and its children are flat. -/
theorem isFlat_branch_iff {a : α} {s : Shape} {cs : List (Tree α)} :
    (branch a s cs).isFlat = true ↔ s.absorbs cs = false ∧ ∀ c ∈ cs, c.isFlat = true := by
  rw [isFlat, isFlatAll_eq_all, Bool.and_eq_true, Bool.not_eq_true', List.all_eq_true]

/-- Merging flat operands gives flat operands, none of which could be merged again. -/
theorem isFlat_branch_merge {a : α} {s : Shape} {cs : List (Tree α)}
    (hflat : ∀ c ∈ cs, c.isFlat = true) : (branch a s (s.merge cs)).isFlat = true := by
  cases s with
  | group => exact isFlat_branch_iff.mpr ⟨rfl, hflat⟩
  | chain op =>
    -- A flat chain has no chains of its operator below it, so one level of merging is enough.
    have hinline : ∀ c ∈ cs, ∀ d ∈ op.inline c, d.isFlat = true ∧ d.kind ≠ .branch (.chain op) := by
      intro c hc d hd
      by_cases hkind : c.kind = .branch (.chain op)
      · obtain ⟨b, ds, rfl⟩ : ∃ b ds, c = branch b (.chain op) ds := by
          cases c with
          | literal b l => simp [kind] at hkind
          | branch b s ds =>
            obtain rfl : s = .chain op := by simpa [kind] using hkind
            exact ⟨b, ds, rfl⟩
        rw [Operator.inline_chain] at hd
        obtain ⟨habsorbs, hds⟩ := isFlat_branch_iff.mp (hflat _ hc)
        exact ⟨hds d hd, Shape.absorbs_chain_eq_false_iff.mp habsorbs d hd⟩
      · rw [Operator.inline_of_kind_ne hkind, List.mem_singleton] at hd
        subst hd
        exact ⟨hflat d hc, hkind⟩
    refine isFlat_branch_iff.mpr
      ⟨Shape.absorbs_chain_eq_false_iff.mpr fun d hd => ?_, fun d hd => ?_⟩
    · obtain ⟨c, hc, hdc⟩ := List.mem_flatMap.mp hd
      exact (hinline c hc d hdc).2
    · obtain ⟨c, hc, hdc⟩ := List.mem_flatMap.mp hd
      exact (hinline c hc d hdc).1

/-- What has been flattened is flat. -/
theorem isFlat_flatten (t : Tree α) : t.flatten.isFlat = true := by
  induction t with
  | literal a l => simp [isFlat]
  | branch a s cs ih =>
    rw [flatten_branch]
    apply isFlat_branch_merge
    intro d hd
    obtain ⟨c, hc, rfl⟩ := List.mem_map.mp hd
    exact ih c hc

/-- Children of which none is absorbed stay as they are. -/
theorem Shape.merge_of_absorbs_eq_false {s : Shape} {cs : List (Tree α)}
    (h : s.absorbs cs = false) : s.merge cs = cs := by
  cases s with
  | group => rfl
  | chain op =>
    have hsingle : ∀ c ∈ cs, op.inline c = [c] := fun c hc =>
      Operator.inline_of_kind_ne (Shape.absorbs_chain_eq_false_iff.mp h c hc)
    rw [Shape.merge, List.flatMap_congr hsingle, List.flatMap_singleton']

/-- Flattening does nothing to a flat tree. -/
theorem flatten_eq_self {t : Tree α} (h : t.isFlat = true) : t.flatten = t := by
  induction t with
  | literal a l => simp
  | branch a s cs ih =>
    obtain ⟨habsorbs, hcs⟩ := isFlat_branch_iff.mp h
    have hsame : cs.map flatten = cs := by
      rw [List.map_congr_left fun c hc => ih c hc (hcs c hc), List.map_id']
    rw [flatten_branch, hsame, Shape.merge_of_absorbs_eq_false habsorbs]

/-- Whether a tree is flat does not depend on tags. -/
theorem isFlat_map {β : Type} (f : α → β) (t : Tree α) : (t.map f).isFlat = t.isFlat := by
  induction t with
  | literal a l => simp [isFlat]
  | branch a s cs ih =>
    have habsorbs : s.absorbs (cs.map (map f)) = s.absorbs cs := by
      cases s with
      | group => rfl
      | chain op => simp [Shape.absorbs, Function.comp_def]
    rw [Bool.eq_iff_iff, map_branch, isFlat_branch_iff, isFlat_branch_iff, habsorbs]
    simp only [List.forall_mem_map]
    exact and_congr_right fun _ => forall₂_congr fun c hc => by rw [ih c hc]

/-- What a chain gives to a chain above it does not depend on tags. -/
theorem map_inline {β : Type} (f : α → β) (op : Operator) (t : Tree α) :
    (op.inline t).map (map f) = op.inline (t.map f) := by
  by_cases hkind : t.kind = .branch (.chain op)
  · cases t with
    | literal a l => simp [kind] at hkind
    | branch a s cs =>
      obtain rfl : s = .chain op := by simpa [kind] using hkind
      rw [map_branch, Operator.inline_chain, Operator.inline_chain]
  · have hmapped : (t.map f).kind ≠ .branch (.chain op) := by rwa [kind_map]
    rw [Operator.inline_of_kind_ne hkind, Operator.inline_of_kind_ne hmapped, List.map_singleton]

/-- Merging takes no notice of tags. -/
theorem map_merge {β : Type} (f : α → β) (s : Shape) (cs : List (Tree α)) :
    (s.merge cs).map (map f) = s.merge (cs.map (map f)) := by
  cases s with
  | group => rfl
  | chain op =>
    rw [Shape.merge, Shape.merge, List.map_flatMap, List.flatMap_map]
    exact List.flatMap_congr fun c _ => map_inline f op c

/-- Flattening takes no notice of tags. -/
theorem map_flatten {β : Type} (f : α → β) (t : Tree α) :
    t.flatten.map f = (t.map f).flatten := by
  induction t with
  | literal a l => simp
  | branch a s cs ih =>
    rw [flatten_branch, map_branch, map_branch, flatten_branch, map_merge, List.map_map,
      List.map_map]
    congr 2
    exact List.map_congr_left ih

end Tree

end Rearrange
