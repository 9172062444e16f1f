import Rearrange.Proofs.Scan.Close
import Rearrange.Proofs.Scan.Operators
import Rearrange.Proofs.Tree.Canonical
import Rearrange.Proofs.Tree.Characters

namespace Rearrange

open Scan

/-- A literal has no parentheses. -/
private theorem Literal.weight_of_mem (l : Literal) {c : Char} (hc : c ∈ l.text) :
    weight c = 0 := by
  apply weight_eq_zero
  · rintro rfl
    exact absurd (l.isDigit_or_isLower_of_mem hc) (by decide)
  · rintro rfl
    exact absurd (l.isDigit_or_isLower_of_mem hc) (by decide)

/-- A literal has no operators. -/
theorem Literal.symbol_not_mem (l : Literal) (op : Operator) : op.symbol ∉ l.text := by
  intro hc
  have := l.isDigit_or_isLower_of_mem hc
  cases op <;> exact absurd this (by decide)

/-- The text of a literal does not start with a parenthesis. -/
theorem Literal.lead_text (l : Literal) : lead l.text = .plain := by
  refine if_neg fun hhead => ?_
  exact absurd (l.weight_of_mem (List.mem_of_head? hhead)) (by decide)

namespace Tree

variable {α : Type}

/-- A canonical tree is written with nested parentheses. -/
theorem IsCanonical.isNested_flat {t : Tree α} (h : t.IsCanonical) : IsNested t.flat := by
  induction h with
  | literal a l =>
    rw [flat_literal]
    exact isNested_of_weight_eq_zero fun c hc => l.weight_of_mem hc
  | group a hc ih =>
    rw [flat_group]
    exact ih.group
  | chain a hlength hkind hcs ih =>
    rw [flat_chain]
    exact IsNested.intercalate (List.forall_mem_map.mpr ih)

/-- A canonical tree is written with balanced parentheses. -/
theorem IsCanonical.depth_flat {t : Tree α} (h : t.IsCanonical) : depth t.flat = 0 :=
  h.isNested_flat.depth_eq

/-- A chain with two operands at least starts with its first operand and the sign behind it. -/
theorem exists_flat_chain_eq (a : α) (op : Operator) {cs : List (Tree α)}
    (hlength : 2 ≤ cs.length) :
    ∃ c ∈ cs, ∃ rest, (branch a (.chain op) cs).flat = c.flat ++ op.symbol :: rest := by
  match cs with
  | c :: d :: ds =>
    refine ⟨c, List.mem_cons_self, [op.symbol].intercalate ((d :: ds).map flat), ?_⟩
    rw [flat_chain, List.map_cons, List.map_cons, List.intercalate_cons_cons, List.append_assoc,
      List.singleton_append]

/-- A canonical tree has a text. -/
theorem IsCanonical.flat_ne_nil {t : Tree α} (h : t.IsCanonical) : t.flat ≠ [] := by
  cases h with
  | literal a l =>
    rw [flat_literal]
    exact l.text_ne_nil
  | group a hc =>
    rw [flat_group]
    exact List.cons_ne_nil _ _
  | @chain a op cs hlength hkind hcs =>
    obtain ⟨c, -, rest, heq⟩ := exists_flat_chain_eq a op hlength
    rw [heq]
    exact List.append_ne_nil_of_right_ne_nil _ (List.cons_ne_nil _ _)

/-- What an operator admits as an operand shows no sign of that operator at depth zero. -/
theorem IsCanonical.not_hasOperator_flat {t : Tree α} (h : t.IsCanonical) {op : Operator}
    (hadmits : op.admits t.kind = true) : ¬ HasOperator op 0 t.flat := by
  induction h with
  | literal a l =>
    rw [flat_literal]
    exact not_hasOperator_of_not_mem (l.symbol_not_mem op)
  | group a hc ih =>
    rw [flat_group]
    exact hc.isNested_flat.not_hasOperator_group op
  | @chain a op' cs hlength hkind hcs ih =>
    have hne : op ≠ op' := by
      rintro rfl
      exact Operator.kind_ne_of_admits hadmits rfl
    obtain rfl : op' = .times := by
      cases op' with
      | times => rfl
      | plus => cases op <;> simp [kind, Operator.admits] at hadmits
    rw [flat_chain]
    apply not_hasOperator_intercalate hne
    · exact List.forall_mem_map.mpr fun c hc => (hcs c hc).depth_flat
    · exact List.forall_mem_map.mpr fun c hc =>
        ih c hc (Operator.admits_of_times (hkind c hc) op)

/-- A chain shows its sign at depth zero. -/
theorem IsCanonical.hasOperator_flat {a : α} {op : Operator} {cs : List (Tree α)}
    (h : (branch a (.chain op) cs).IsCanonical) :
    HasOperator op 0 (branch a (.chain op) cs).flat := by
  obtain ⟨hlength, hcs⟩ := isCanonical_chain_iff.mp h
  rw [flat_chain]
  apply hasOperator_intercalate
  · rwa [List.length_map]
  · exact List.forall_mem_map.mpr fun c hc => (hcs c hc).2.depth_flat

/-- Without the operator at top level in its text, a tree is no chain of it. -/
theorem IsCanonical.kind_ne_of_not_hasOperator {t : Tree α} (h : t.IsCanonical) {op : Operator}
    (hnot : ¬ HasOperator op 0 t.flat) : t.kind ≠ .branch (.chain op) := by
  cases t with
  | literal a l => simp [kind]
  | branch a s cs =>
    simp only [kind, ne_eq, Kind.branch.injEq]
    rintro rfl
    exact hnot h.hasOperator_flat

/-- The operands of a chain are found again in its text. -/
theorem IsCanonical.operands_flat {a : α} {op : Operator} {cs : List (Tree α)}
    (h : (branch a (.chain op) cs).IsCanonical) :
    operands op (branch a (.chain op) cs).flat = cs.map flat := by
  obtain ⟨hlength, hcs⟩ := isCanonical_chain_iff.mp h
  rw [flat_chain]
  apply operands_intercalate
  · simp only [ne_eq, List.map_eq_nil_iff]
    rintro rfl
    simp at hlength
  · exact List.forall_mem_map.mpr fun c hc => (hcs c hc).2.depth_flat
  · exact List.forall_mem_map.mpr fun c hc => (hcs c hc).2.not_hasOperator_flat (hcs c hc).1

/-- The scan decides for the operator of the chain. -/
theorem IsCanonical.exists_splitPoint_flat {a : α} {op : Operator} {cs : List (Tree α)}
    (h : (branch a (.chain op) cs).IsCanonical) :
    ∃ i, splitPoint (branch a (.chain op) cs).flat = some (i, op) := by
  cases op with
  | plus => exact exists_splitPoint_eq_plus_iff.mpr h.hasOperator_flat
  | times =>
    refine exists_splitPoint_eq_times_iff.mpr ⟨h.hasOperator_flat, ?_⟩
    exact h.not_hasOperator_flat rfl

/-- The text of a canonical tree does not start with a hollow group. -/
theorem IsCanonical.lead_flat_ne_hollow {t : Tree α} (h : t.IsCanonical) :
    lead t.flat ≠ .hollow := by
  induction h with
  | literal a l =>
    rw [flat_literal, l.lead_text]
    exact nofun
  | group a hc ih =>
    rw [ne_eq, lead_eq_hollow_iff, flat_group, List.cons_append, List.cons_prefix_cons]
    rintro ⟨-, hstart⟩
    have hclose : [')'] <+: Tree.flat _ :=
      List.prefix_of_prefix_length_le hstart (List.prefix_append _ _)
        (List.length_pos_iff.mpr hc.flat_ne_nil)
    exact absurd (hc.isNested_flat.depth_nonneg _ hclose) (by decide)
  | @chain a op cs hlength hkind hcs ih =>
    obtain ⟨c, hc, rest, heq⟩ := exists_flat_chain_eq a op hlength
    rw [heq, ne_eq, lead_append_symbol_eq_hollow_iff op rest (hcs c hc).depth_flat]
    exact ih c hc

/-- The text of a chain is not in parentheses as a whole. -/
theorem IsCanonical.lead_flat_chain {a : α} {op : Operator} {cs : List (Tree α)}
    (h : (branch a (.chain op) cs).IsCanonical) :
    lead (branch a (.chain op) cs).flat = .plain := by
  cases hlead : lead (branch a (.chain op) cs).flat with
  | plain => rfl
  | hollow => exact absurd hlead h.lead_flat_ne_hollow
  | enclosing inner =>
    obtain ⟨htext, hnested, -⟩ := lead_eq_enclosing_iff.mp hlead
    exact absurd (htext ▸ h.hasOperator_flat) (hnested.not_hasOperator_group op)

end Tree

end Rearrange
