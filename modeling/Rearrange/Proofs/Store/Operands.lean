import Rearrange.Proofs.Parse.Grammar
import Rearrange.Proofs.Store.Merging

namespace Rearrange

variable {α : Type}

/-- Texts that are themselves put together of nonempty lists of texts can be put together at once.
-/
private theorem intercalate_flatMap {x : Char} {cs : List α} {f : α → List (List Char)}
    (hf : ∀ c ∈ cs, f c ≠ []) :
    [x].intercalate (cs.flatMap f) = [x].intercalate (cs.map fun c => [x].intercalate (f c)) := by
  induction cs with
  | nil => rfl
  | cons c cs ih =>
    obtain ⟨hc, hcs⟩ := List.forall_mem_cons.mp hf
    cases cs with
    | nil => simp
    | cons d ds =>
      have hpieces : (d :: ds).flatMap f ≠ [] := by
        rw [List.flatMap_cons]
        exact List.append_ne_nil_of_left_ne_nil (hcs d List.mem_cons_self) _
      have hrest : (d :: ds).map (fun c => [x].intercalate (f c)) ≠ [] := List.cons_ne_nil _ _
      symm
      rw [List.map_cons, List.intercalate_cons_of_ne_nil hrest, ← ih hcs, List.append_assoc,
        List.singleton_append]
      exact (intercalate_append hc hpieces).symm

namespace Tree

/-- Every chain of the tree has an operand. Groups may hold any number of expressions. -/
inductive HasOperands : Tree α → Prop where
  | literal (a : α) (l : Literal) : HasOperands (.literal a l)
  | group (a : α) {cs : List (Tree α)} (hcs : ∀ c ∈ cs, HasOperands c) :
      HasOperands (.branch a .group cs)
  | chain (a : α) (op : Operator) {cs : List (Tree α)} (hne : cs ≠ [])
      (hcs : ∀ c ∈ cs, HasOperands c) : HasOperands (.branch a (.chain op) cs)

/-- The text of a branch depends on its children through their texts only. -/
private theorem flat_branch_congr (a : α) (s : Shape) {cs ds : List (Tree α)}
    (h : cs.map flat = ds.map flat) : (branch a s cs).flat = (branch a s ds).flat := by
  cases s with
  | group => rw [flat, flat, flatAll_eq_map, flatAll_eq_map, h]
  | chain op => rw [flat_chain, flat_chain, h]

namespace HasOperands

variable {t : Tree α}

theorem of_mem {a : α} {s : Shape} {cs : List (Tree α)} (h : (branch a s cs).HasOperands)
    {c : Tree α} (hc : c ∈ cs) : c.HasOperands := by
  cases h with
  | group a hcs => exact hcs c hc
  | chain a op hne hcs => exact hcs c hc

/-- A tree with operands is inlined as one at least. -/
theorem inline_ne_nil (h : t.HasOperands) (op : Operator) : op.inline t ≠ [] := by
  by_cases hkind : t.kind = .branch (.chain op)
  · cases h with
    | literal a l => simp [kind] at hkind
    | group a hcs => simp [kind] at hkind
    | chain a op' hne hcs =>
      obtain rfl : op' = op := by simpa [kind] using hkind
      rwa [Operator.inline_chain]
  · rw [Operator.inline_of_kind_ne hkind]
    exact List.cons_ne_nil t []

/-- What a tree with operands is inlined as has operands. -/
theorem of_mem_inline {d : Tree α} {op : Operator} (h : t.HasOperands) (hd : d ∈ op.inline t) :
    d.HasOperands := by
  by_cases hkind : t.kind = .branch (.chain op)
  · cases h with
    | literal a l => simp [kind] at hkind
    | group a hcs => simp [kind] at hkind
    | chain a op' hne hcs =>
      obtain rfl : op' = op := by simpa [kind] using hkind
      rw [Operator.inline_chain] at hd
      exact hcs d hd
  · rw [Operator.inline_of_kind_ne hkind, List.mem_singleton] at hd
    exact hd ▸ h

/-- Merging the children of a node leaves operands everywhere. -/
theorem branch_merge {a : α} {s : Shape} {cs : List (Tree α)} (h : (branch a s cs).HasOperands) :
    (branch a s (s.merge cs)).HasOperands := by
  cases h with
  | group a hcs => exact .group a hcs
  | chain a op hne hcs =>
    obtain ⟨c, hc⟩ := List.exists_mem_of_ne_nil cs hne
    refine .chain a op ?_ fun d hd => ?_
    · rw [Shape.merge, ne_eq, List.flatMap_eq_nil_iff]
      exact fun hnil => (hcs c hc).inline_ne_nil op (hnil c hc)
    · obtain ⟨c, hc, hdc⟩ := List.mem_flatMap.mp hd
      exact (hcs c hc).of_mem_inline hdc

/-- Merging the children of a node does not change its text. -/
theorem flat_branch_merge {a : α} {s : Shape} {cs : List (Tree α)}
    (h : (branch a s cs).HasOperands) : (branch a s (s.merge cs)).flat = (branch a s cs).flat := by
  cases h with
  | group a hcs => rfl
  | chain a op hne hcs =>
    have hpieces : ∀ c ∈ cs, (op.inline c).map flat ≠ [] := fun c hc hnil =>
      (hcs c hc).inline_ne_nil op (List.map_eq_nil_iff.mp hnil)
    rw [flat_chain, flat_chain, Shape.merge, List.map_flatMap, intercalate_flatMap hpieces]
    exact congrArg _ (List.map_congr_left fun c _ => intercalate_flat_inline op c)

/-- A branch whose children have been flattened has operands where it had them. -/
theorem branch_map_flatten {a : α} {s : Shape} {cs : List (Tree α)}
    (h : (branch a s cs).HasOperands) (hflatten : ∀ c ∈ cs, c.flatten.HasOperands) :
    (branch a s (cs.map Tree.flatten)).HasOperands := by
  cases h with
  | group a hcs => exact .group a (List.forall_mem_map.mpr hflatten)
  | chain a op hne hcs =>
    exact .chain a op (by simpa using hne) (List.forall_mem_map.mpr hflatten)

/-- In a flattened tree every chain has an operand if it was so before. -/
theorem flatten (h : t.HasOperands) : t.flatten.HasOperands := by
  induction t with
  | literal a l => exact flatten_literal a l ▸ h
  | branch a s cs ih =>
    rw [flatten_branch]
    exact (h.branch_map_flatten fun c hc => ih c hc (h.of_mem hc)).branch_merge

/-- Flattening does not change the text of a tree in which every chain has an operand. -/
theorem flat_flatten (h : t.HasOperands) : t.flatten.flat = t.flat := by
  induction t with
  | literal a l => rw [flatten_literal]
  | branch a s cs ih =>
    have hchildren := h.branch_map_flatten fun c hc => (h.of_mem hc).flatten
    rw [flatten_branch, hchildren.flat_branch_merge]
    apply flat_branch_congr
    rw [List.map_map]
    exact List.map_congr_left fun c hc => ih c hc (h.of_mem hc)

end HasOperands

end Tree

/-- Flattening does not change the text of a tree in which every chain has an operand, and every
chain of the flattened tree has an operand again. The same is true of the nodes of a store, which
are flattened in place, also where nodes stand in several places. -/
theorem flatten_keeps_text :
    (∀ {α : Type} (t : Tree α), t.HasOperands →
      t.flatten.flat = t.flat ∧ t.flatten.HasOperands) ∧
    ∀ (s : Store) (t : Tree NodeId), s.Holds t → t.HasOperands →
      ((s.flatten t.tag).expr t.tag).flat = (s.expr t.tag).flat ∧
      ((s.flatten t.tag).tree t.tag).HasOperands := by
  constructor
  · exact fun t h => ⟨h.flat_flatten, h.flatten⟩
  · intro s t ht h
    have hflattened : (s.flatten t.tag).tree t.tag = t.flatten := by
      have htree := ht.flatten.tree_eq
      rwa [Tree.tag_flatten] at htree
    rw [Store.expr, Store.expr, hflattened, ht.tree_eq, Tree.flat_erase, Tree.flat_erase]
    exact ⟨h.flat_flatten, h.flatten⟩

/-- A sum that stands in a product, in a group and twice in a sum, beside a group of nothing. -/
theorem flatten_keeps_text_shared_sum :
    let a : Literal := ⟨['a'], rfl⟩
    let s : Store := ⟨#[{ content := .literal a }, { content := .branch (.chain .plus) [0, 0] },
      { content := .branch (.chain .times) [1, 0] }, { content := .branch .group [] },
      { content := .branch .group [1, 2] }, { content := .branch (.chain .plus) [1, 2, 3, 4, 1] }]⟩
    let leaf : Tree NodeId := .literal 0 a
    let sum : Tree NodeId := .branch 1 (.chain .plus) [leaf, leaf]
    let product : Tree NodeId := .branch 2 (.chain .times) [sum, leaf]
    let t : Tree NodeId := .branch 5 (.chain .plus)
      [sum, product, .branch 3 .group [], .branch 4 .group [sum, product], sum]
    (s.Holds t ∧ t.HasOperands) ∧
      ((s.flatten 5).expr 5).flat = (s.expr 5).flat ∧
      ((s.flatten 5).tree 5).HasOperands ∧
      (s.expr 5).text = "a+a+a+a*a+()+(a+a)+a+a" ∧
      (s.flatten 5).children 5 = [0, 0, 2, 3, 4, 0, 0] := by
  intro a s leaf sum product t
  have hleaf : s.Holds leaf := .literal (by decide) rfl
  have hsum : s.Holds sum := .branch (by decide) rfl (by simp [hleaf])
  have hproduct : s.Holds product := .branch (by decide) rfl (by simp [hsum, hleaf])
  have hempty : s.Holds (.branch 3 .group []) := .branch (by decide) rfl nofun
  have hcrowded : s.Holds (.branch 4 .group [sum, product]) :=
    .branch (by decide) rfl (by simp [hsum, hproduct])
  have ht : s.Holds t := .branch (by decide) rfl (by simp [hsum, hproduct, hempty, hcrowded])
  have hleafOperands : leaf.HasOperands := .literal 0 a
  have hsumOperands : sum.HasOperands := .chain 1 .plus (by simp) (by simp [hleafOperands])
  have hproductOperands : product.HasOperands :=
    .chain 2 .times (by simp) (by simp [hsumOperands, hleafOperands])
  have hemptyOperands : (Tree.branch 3 .group []).HasOperands := .group 3 nofun
  have hcrowdedOperands : (Tree.branch 4 .group [sum, product]).HasOperands :=
    .group 4 (by simp [hsumOperands, hproductOperands])
  have htOperands : t.HasOperands := .chain 5 .plus (by simp)
    (by simp [hsumOperands, hproductOperands, hemptyOperands, hcrowdedOperands])
  obtain ⟨htext, hoperands⟩ := flatten_keeps_text.2 s t ht htOperands
  exact ⟨⟨ht, htOperands⟩, htext, hoperands, by decide +kernel, by decide +kernel⟩

end Rearrange
