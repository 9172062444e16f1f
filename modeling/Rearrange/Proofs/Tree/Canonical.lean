import Rearrange.Proofs.Tree.Flatten

namespace Rearrange

variable {α β : Type}

/-- The kinds of the operands that an operator may have without parentheses: literals and groups,
and products under a plus. -/
def Operator.admits : Operator → Kind → Bool
  | _, .literal => true
  | _, .branch .group => true
  | .plus, .branch (.chain .times) => true
  | .plus, .branch (.chain .plus) => false
  | .times, .branch (.chain _) => false

/-- No chain admits a chain of its own operator. -/
theorem Operator.kind_ne_of_admits {op : Operator} {k : Kind} (h : op.admits k = true) :
    k ≠ .branch (.chain op) := by
  rintro rfl
  cases op <;> exact absurd h (by decide)

/-- What may stand under a times without parentheses may stand under every operator. -/
theorem Operator.admits_of_times {k : Kind} (h : Operator.times.admits k = true)
    (op : Operator) : op.admits k = true := by
  rcases k with _ | _ | op'
  · cases op <;> rfl
  · cases op <;> rfl
  · exact absurd h (by simp [admits])

/-- A sum admits all but sums. -/
theorem Operator.plus_admits_iff {k : Kind} :
    Operator.plus.admits k = true ↔ k ≠ .branch (.chain .plus) := by
  rcases k with _ | _ | _ | _ <;> simp [Operator.admits]

/-- A product admits literals and groups. -/
theorem Operator.times_admits_iff {k : Kind} :
    Operator.times.admits k = true ↔ ∀ op, k ≠ .branch (.chain op) := by
  rcases k with _ | _ | op
  · simp [Operator.admits]
  · simp [Operator.admits]
  · simp [Operator.admits]

namespace Tree

/-- The tree is one that a text can say. -/
inductive IsCanonical : Tree α → Prop where
  | literal (a : α) (l : Literal) : IsCanonical (.literal a l)
  | group (a : α) {c : Tree α} (hc : IsCanonical c) : IsCanonical (.branch a .group [c])
  | chain (a : α) {op : Operator} {cs : List (Tree α)} (hlength : 2 ≤ cs.length)
      (hkind : ∀ c ∈ cs, op.admits c.kind = true) (hcs : ∀ c ∈ cs, IsCanonical c) :
      IsCanonical (.branch a (.chain op) cs)

/-- A group is canonical if it has one child, which is canonical. -/
theorem isCanonical_group_iff {a : α} {cs : List (Tree α)} :
    (branch a .group cs).IsCanonical ↔ ∃ c, cs = [c] ∧ c.IsCanonical := by
  constructor
  · intro h
    cases h with
    | group _ hc => exact ⟨_, rfl, hc⟩
  · rintro ⟨c, rfl, hc⟩
    exact .group a hc

/-- A chain is canonical if it has two operands at least, which it admits and which are canonical.
-/
theorem isCanonical_chain_iff {a : α} {op : Operator} {cs : List (Tree α)} :
    (branch a (.chain op) cs).IsCanonical ↔
      2 ≤ cs.length ∧ ∀ c ∈ cs, op.admits c.kind = true ∧ c.IsCanonical := by
  constructor
  · intro h
    cases h with
    | chain _ hlength hkind hcs => exact ⟨hlength, fun c hc => ⟨hkind c hc, hcs c hc⟩⟩
  · rintro ⟨hlength, hcs⟩
    exact .chain a hlength (fun c hc => (hcs c hc).1) fun c hc => (hcs c hc).2

/-- No further flattening of a canonical tree is possible. -/
theorem IsCanonical.isFlat {t : Tree α} (h : t.IsCanonical) : t.isFlat = true := by
  induction h with
  | literal a l => simp [Tree.isFlat]
  | group a hc ih => exact isFlat_branch_iff.mpr ⟨rfl, by simpa using ih⟩
  | chain a hlength hkind hcs ih =>
    refine isFlat_branch_iff.mpr ⟨Shape.absorbs_chain_eq_false_iff.mpr fun c hc => ?_, ih⟩
    exact Operator.kind_ne_of_admits (hkind c hc)

/-- Whether a tree is canonical does not depend on tags. -/
theorem isCanonical_map_iff {f : α → β} {t : Tree α} :
    (t.map f).IsCanonical ↔ t.IsCanonical := by
  induction t with
  | literal a l => simp [IsCanonical.literal]
  | branch a s cs ih =>
    cases s with
    | group =>
      rw [map_branch, isCanonical_group_iff, isCanonical_group_iff]
      constructor
      · rintro ⟨d, hcs, hd⟩
        obtain ⟨c, rfl, rfl⟩ := List.map_eq_singleton_iff.mp hcs
        exact ⟨c, rfl, (ih c (by simp)).mp hd⟩
      · rintro ⟨c, rfl, hc⟩
        exact ⟨c.map f, rfl, (ih c (by simp)).mpr hc⟩
    | chain op =>
      rw [map_branch, isCanonical_chain_iff, isCanonical_chain_iff, List.length_map,
        List.forall_mem_map]
      refine and_congr_right fun _ => forall₂_congr fun c hc => ?_
      rw [kind_map, ih c hc]

/-- A tree is canonical if the expression is that it stands for. -/
theorem isCanonical_erase_iff {t : Tree α} : t.erase.IsCanonical ↔ t.IsCanonical :=
  isCanonical_map_iff

end Tree

end Rearrange
