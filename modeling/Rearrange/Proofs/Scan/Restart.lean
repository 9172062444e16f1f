import Rearrange.Proofs.Scan.Operators

namespace Rearrange.Scan

/-- The operators with their indices shifted to the right. -/
def shifted (offset : Nat) (found : List (Nat × Operator)) : List (Nat × Operator) :=
  found.map fun x => (x.1 + offset, x.2)

private theorem shifted_cons (offset i : Nat) (op : Operator) (found : List (Nat × Operator)) :
    shifted offset ((i, op) :: found) = (i + offset, op) :: shifted offset found :=
  rfl

private theorem shifted_shifted (m n : Nat) (found : List (Nat × Operator)) :
    shifted m (shifted n found) = shifted (n + m) found := by
  simp [shifted, Nat.add_assoc]

/-- The first index is added to every index that is found. -/
theorem operatorsFrom_add (i offset : Nat) (d : Int) (text : List Char) :
    operatorsFrom (i + offset) d text = shifted offset (operatorsFrom i d text) := by
  induction text generalizing i d with
  | nil => rfl
  | cons c rest ih =>
    have hrest : operatorsFrom (i + offset + 1) (d + weight c) rest =
        shifted offset (operatorsFrom (i + 1) (d + weight c) rest) := by
      rw [← ih, Nat.add_right_comm]
    rw [operatorsFrom, operatorsFrom, hrest]
    cases Operator.ofChar? c with
    | none => rfl
    | some op => by_cases hd : d = 0 <;> simp [hd, shifted]

/-- The scan of two texts goes on in the second one at the depth where the first one ends. -/
theorem operatorsFrom_append (i : Nat) (d : Int) (a b : List Char) :
    operatorsFrom i d (a ++ b) =
      operatorsFrom i d a ++ operatorsFrom (i + a.length) (d + depth a) b := by
  induction a generalizing i d with
  | nil => simp [operatorsFrom, depth]
  | cons c a ih =>
    have hlength : i + 1 + a.length = i + (c :: a).length := by
      rw [List.length_cons]
      omega
    have hdepth : d + weight c + depth a = d + depth (c :: a) := by
      rw [depth, Int.add_assoc]
    rw [List.cons_append, operatorsFrom, operatorsFrom, ih, hlength, hdepth]
    cases Operator.ofChar? c with
    | none => rfl
    | some op => by_cases hd : d = 0 <;> simp [hd]

/-- The scan finds nothing when there is no operator. -/
theorem operatorsFrom_eq_nil_iff {i : Nat} {d : Int} {text : List Char} :
    operatorsFrom i d text = [] ↔ ∀ op, ¬ HasOperator op d text := by
  simp only [List.eq_nil_iff_forall_not_mem, Prod.forall, ← exists_mem_operatorsFrom_iff (i := i),
    not_exists]
  exact ⟨fun h op j => h j op, fun h j op => h op j⟩

/-- A scan may be started anew after a text of depth zero. -/
theorem topLevelOperators_append {a : List Char} (h : depth a = 0) (b : List Char) :
    topLevelOperators (a ++ b) =
      topLevelOperators a ++ shifted a.length (topLevelOperators b) := by
  rw [topLevelOperators, topLevelOperators, topLevelOperators, ← operatorsFrom_add,
    operatorsFrom_append, h]
  rfl

/-- A sign at the start of a text stands at depth zero. -/
theorem topLevelOperators_symbol_cons (op : Operator) (b : List Char) :
    topLevelOperators (op.symbol :: b) = (0, op) :: shifted 1 (topLevelOperators b) := by
  have hop : Operator.ofChar? op.symbol = some op := Operator.ofChar?_eq_some_iff.mpr rfl
  simp only [topLevelOperators, operatorsFrom, weight_symbol, hop, if_true, ← operatorsFrom_add,
    Int.add_zero]

/-- No operator is found in a nested text that is put in parentheses. -/
theorem IsNested.topLevelOperators_group {a : List Char} (h : IsNested a) :
    topLevelOperators ('(' :: a ++ [')']) = [] :=
  operatorsFrom_eq_nil_iff.mpr h.not_hasOperator_group

/-- The scan starts afresh behind a sign that follows a balanced text, and behind a nested text in
parentheses. Of the latter it finds nothing, whatever comes after. -/
theorem topLevelOperators_restarts (a b : List Char) :
    (isBalanced a = true → ∀ op : Operator, topLevelOperators (a ++ op.symbol :: b) =
        topLevelOperators a ++ (a.length, op) :: shifted (a.length + 1) (topLevelOperators b)) ∧
      (IsNested a →
        topLevelOperators ('(' :: a ++ ')' :: b) = shifted (a.length + 2) (topLevelOperators b) ∧
          ∀ i op, (i, op) ∈ topLevelOperators ('(' :: a ++ ')' :: b) → a.length + 2 ≤ i) := by
  refine ⟨fun hbalanced op => ?_, fun hnested => ?_⟩
  · rw [topLevelOperators_append (isBalanced_iff_depth.mp hbalanced), topLevelOperators_symbol_cons,
      shifted_cons, shifted_shifted, Nat.zero_add, Nat.add_comm 1]
  · have hgroup : topLevelOperators ('(' :: a ++ ')' :: b) =
        shifted (a.length + 2) (topLevelOperators b) := by
      rw [List.append_cons ('(' :: a), topLevelOperators_append hnested.group.depth_eq,
        hnested.topLevelOperators_group, List.nil_append]
      simp
    refine ⟨hgroup, fun i op hmem => ?_⟩
    rw [hgroup, shifted, List.mem_map] at hmem
    obtain ⟨found, -, hfound⟩ := hmem
    have hindex : found.1 + (a.length + 2) = i := congrArg Prod.fst hfound
    omega

/-- The first text is balanced and not nested, the second one has a parenthesis that is never
closed. -/
theorem topLevelOperators_restarts_misnested :
    let a := ")*(".toList
    let b := "x*(y+z".toList
    let inner := "u+(v)".toList
    (isBalanced a = true ∧ ¬ IsNested a ∧ topLevelOperators (a ++ '+' :: b) =
        topLevelOperators a ++ (3, .plus) :: shifted 4 (topLevelOperators b)) ∧
      IsNested inner ∧ topLevelOperators ('(' :: inner ++ ')' :: b) = [(8, .times)] := by
  intro a b inner
  have hinner : IsNested inner := by
    have hu : IsNested ['u', '+'] := isNested_of_weight_eq_zero (by simp [weight])
    have hv : IsNested ['v'] := isNested_of_weight_eq_zero (by simp [weight])
    exact hu.append hv.group
  have hmisnested : ¬ IsNested a := fun h => absurd (h.depth_nonneg [')'] (by decide)) (by decide)
  have hbalanced : isBalanced a = true := by decide
  refine ⟨⟨hbalanced, hmisnested, (topLevelOperators_restarts a b).1 hbalanced .plus⟩, hinner, ?_⟩
  rw [((topLevelOperators_restarts inner b).2 hinner).1]
  decide

end Rearrange.Scan
