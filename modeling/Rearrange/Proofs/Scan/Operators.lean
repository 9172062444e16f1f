import Rearrange.Proofs.Scan.Depth

namespace Rearrange.Scan

/-- A text that starts at the given depth has the sign of the operator at depth zero. -/
def HasOperator (op : Operator) (d : Int) (text : List Char) : Prop :=
  ∃ a b, text = a ++ op.symbol :: b ∧ d + depth a = 0

private theorem not_hasOperator_nil (op : Operator) (d : Int) : ¬ HasOperator op d [] := by
  rintro ⟨a, b, htext, -⟩
  simp at htext

/-- An operator is the first character at depth zero, or comes later. -/
theorem hasOperator_cons {op : Operator} {d : Int} {c : Char} {rest : List Char} :
    HasOperator op d (c :: rest) ↔
      d = 0 ∧ c = op.symbol ∨ HasOperator op (d + weight c) rest := by
  constructor
  · rintro ⟨a, b, htext, hsum⟩
    cases a with
    | nil =>
      obtain ⟨rfl, -⟩ := List.cons.inj htext
      exact .inl ⟨by simpa [depth] using hsum, rfl⟩
    | cons c' a =>
      obtain ⟨rfl, rfl⟩ := List.cons.inj htext
      exact .inr ⟨a, b, rfl, by rw [depth] at hsum; omega⟩
  · rintro (⟨rfl, rfl⟩ | ⟨a, b, rfl, hsum⟩)
    · exact ⟨[], rest, rfl, rfl⟩
    · exact ⟨c :: a, b, rfl, by rw [depth]; omega⟩

/-- An operator is in the first part or in the second, at the depth where this one starts. -/
theorem hasOperator_append {op : Operator} {d : Int} {a b : List Char} :
    HasOperator op d (a ++ b) ↔ HasOperator op d a ∨ HasOperator op (d + depth a) b := by
  induction a generalizing d with
  | nil => simp [not_hasOperator_nil, depth]
  | cons c a ih =>
    rw [List.cons_append, hasOperator_cons, hasOperator_cons, ih, depth, or_assoc, Int.add_assoc]

/-- A sign at depth zero has a first occurrence. -/
theorem HasOperator.exists_first {op : Operator} {d : Int} {text : List Char}
    (h : HasOperator op d text) :
    ∃ a b, text = a ++ op.symbol :: b ∧ d + depth a = 0 ∧ ¬ HasOperator op d a := by
  induction text generalizing d with
  | nil => exact absurd h (not_hasOperator_nil op d)
  | cons c rest ih =>
    by_cases hhere : d = 0 ∧ c = op.symbol
    · obtain ⟨rfl, rfl⟩ := hhere
      exact ⟨[], rest, rfl, rfl, not_hasOperator_nil op 0⟩
    · obtain ⟨a, b, rfl, hsum, hfirst⟩ := ih ((hasOperator_cons.mp h).resolve_left hhere)
      refine ⟨c :: a, b, rfl, by rw [depth]; omega, fun hmem => ?_⟩
      exact (hasOperator_cons.mp hmem).elim hhere hfirst

/-- Inside a nested text that follows an opening parenthesis nothing is at depth zero. -/
theorem IsNested.not_hasOperator_group {inner : List Char} (h : IsNested inner) (op : Operator) :
    ¬ HasOperator op 0 ('(' :: inner ++ [')']) := by
  rintro ⟨a, b, htext, hsum⟩
  cases a with
  | nil =>
    have hsymbol : '(' = op.symbol := (List.cons.inj htext).1
    cases op <;> simp [Operator.symbol] at hsymbol
  | cons c a =>
    obtain ⟨rfl, htail⟩ := List.cons.inj htext
    have hstart : a <+: inner ++ [')'] := ⟨_, htail.symm⟩
    rcases List.prefix_concat_iff.mp hstart with rfl | hstart
    · simp at htail
    · have := h.depth_cons_pos hstart
      omega

/-- Where the sign does not occur there is no operator. -/
theorem not_hasOperator_of_not_mem {op : Operator} {d : Int} {text : List Char}
    (h : op.symbol ∉ text) : ¬ HasOperator op d text := by
  rintro ⟨a, b, rfl, -⟩
  simp at h

/-- The scan reports the signs at depth zero, each with its index. -/
theorem mem_operatorsFrom_iff {op : Operator} {i j : Nat} {d : Int} {text : List Char} :
    (j, op) ∈ operatorsFrom i d text ↔
      ∃ a b, text = a ++ op.symbol :: b ∧ i + a.length = j ∧ d + depth a = 0 := by
  induction text generalizing i d with
  | nil => simp [operatorsFrom]
  | cons c rest ih =>
    -- The first character is the operator that is looked for, or the rest has it one place further.
    have hcons : (j, op) ∈ operatorsFrom i d (c :: rest) ↔
        (d = 0 ∧ c = op.symbol ∧ j = i) ∨
          (j, op) ∈ operatorsFrom (i + 1) (d + weight c) rest := by
      rw [operatorsFrom]
      cases hop : Operator.ofChar? c with
      | none =>
        have hne : c ≠ op.symbol := by
          rintro rfl
          rw [Operator.ofChar?_eq_some_iff.mpr rfl] at hop
          contradiction
        simp [hne]
      | some op' =>
        have hsame : c = op.symbol ↔ op = op' := by
          rw [← Operator.ofChar?_eq_some_iff, hop, Option.some.injEq, eq_comm]
        by_cases hd : d = 0
        · simp only [hd, if_true, List.mem_cons, Prod.mk.injEq, hsame, true_and, and_comm]
        · simp only [hd, if_false, false_and, false_or]
    rw [hcons, ih]
    constructor
    · rintro (⟨rfl, rfl, rfl⟩ | ⟨a, b, rfl, rfl, hsum⟩)
      · exact ⟨[], rest, rfl, rfl, rfl⟩
      · refine ⟨c :: a, b, rfl, ?_, by rw [depth]; omega⟩
        rw [List.length_cons]
        omega
    · rintro ⟨a, b, htext, rfl, hsum⟩
      cases a with
      | nil =>
        obtain ⟨rfl, -⟩ := List.cons.inj htext
        exact .inl ⟨by simpa [depth] using hsum, rfl, rfl⟩
      | cons c' a =>
        obtain ⟨rfl, rfl⟩ := List.cons.inj htext
        rw [depth] at hsum
        refine .inr ⟨a, b, rfl, ?_, by omega⟩
        rw [List.length_cons]
        omega

/-- A top-level operator is one that comes after a text of depth zero. -/
theorem mem_topLevelOperators_iff {op : Operator} {i : Nat} {text : List Char} :
    (i, op) ∈ topLevelOperators text ↔
      ∃ a b, text = a ++ op.symbol :: b ∧ a.length = i ∧ depth a = 0 := by
  rw [topLevelOperators, mem_operatorsFrom_iff]
  simp only [Nat.zero_add, Int.zero_add]

/-- The scan finds an operator when there is one. -/
theorem exists_mem_operatorsFrom_iff {op : Operator} {i : Nat} {d : Int} {text : List Char} :
    (∃ j, (j, op) ∈ operatorsFrom i d text) ↔ HasOperator op d text := by
  simp only [mem_operatorsFrom_iff]
  constructor
  · rintro ⟨_, a, b, htext, -, hsum⟩
    exact ⟨a, b, htext, hsum⟩
  · rintro ⟨a, b, htext, hsum⟩
    exact ⟨_, a, b, htext, rfl, hsum⟩

/-- The scan finds the first plus at depth zero if there is one. -/
theorem exists_splitPoint_eq_plus_iff {text : List Char} :
    (∃ i, splitPoint text = some (i, .plus)) ↔ HasOperator .plus 0 text := by
  rw [← exists_mem_operatorsFrom_iff (i := 0), splitPoint, topLevelOperators]
  constructor
  · rintro ⟨i, h⟩
    exact ⟨i, mem_topLevelOperators_of_splitPoint h⟩
  · rintro ⟨j, hj⟩
    cases hfind : (operatorsFrom 0 0 text).find? (·.2 = .plus) with
    | none => exact absurd (List.find?_eq_none.mp hfind _ hj) (by simp)
    | some found =>
      have hop : found.2 = .plus := by simpa using List.find?_some hfind
      exact ⟨found.1, by rw [Option.some_or, ← hop]⟩

/-- Only where there is no plus at depth zero does the scan settle for a times. -/
theorem exists_splitPoint_eq_times_iff {text : List Char} :
    (∃ i, splitPoint text = some (i, .times)) ↔
      HasOperator .times 0 text ∧ ¬ HasOperator .plus 0 text := by
  rw [← exists_mem_operatorsFrom_iff (i := 0), ← exists_mem_operatorsFrom_iff (i := 0), splitPoint,
    topLevelOperators]
  constructor
  · rintro ⟨i, h⟩
    refine ⟨⟨i, mem_topLevelOperators_of_splitPoint h⟩, ?_⟩
    rintro ⟨j, hj⟩
    obtain hplus | ⟨hplus, -⟩ := Option.or_eq_some_iff.mp h
    · simpa using List.find?_some hplus
    · exact List.find?_eq_none.mp hplus _ hj (by simp)
  · rintro ⟨⟨j, hj⟩, hplus⟩
    have hnone : (operatorsFrom 0 0 text).find? (·.2 = .plus) = none := by
      rw [List.find?_eq_none]
      rintro ⟨k, op⟩ hk hop
      obtain rfl : op = .plus := by simpa using hop
      exact hplus ⟨k, hk⟩
    rw [hnone, Option.none_or]
    cases hfind : (operatorsFrom 0 0 text).find? (·.2 = .times) with
    | none => exact absurd (List.find?_eq_none.mp hfind _ hj) (by simp)
    | some found =>
      have hop : found.2 = .times := by simpa using List.find?_some hfind
      exact ⟨found.1, by rw [← hop]⟩

/-- A text is not split when it has no top-level operator. -/
theorem splitPoint_eq_none_iff {text : List Char} :
    splitPoint text = none ↔ ∀ op, ¬ HasOperator op 0 text := by
  constructor
  · intro hnone op hop
    have hplus : ¬ HasOperator .plus 0 text := by
      rw [← exists_splitPoint_eq_plus_iff, hnone]
      simp
    cases op with
    | plus => exact hplus hop
    | times =>
      obtain ⟨i, hi⟩ := exists_splitPoint_eq_times_iff.mpr ⟨hop, hplus⟩
      rw [hnone] at hi
      contradiction
  · intro hnot
    cases h : splitPoint text with
    | none => rfl
    | some found =>
      obtain ⟨i, op⟩ := found
      have hmem := mem_topLevelOperators_of_splitPoint h
      exact absurd (exists_mem_operatorsFrom_iff.mp ⟨i, hmem⟩) (hnot op)

/-- A text is split at an operator that it has. -/
theorem hasOperator_of_splitPoint {text : List Char} {i : Nat} {op : Operator}
    (h : splitPoint text = some (i, op)) : HasOperator op 0 text :=
  exists_mem_operatorsFrom_iff.mp ⟨i, mem_topLevelOperators_of_splitPoint h⟩

/-- A text is split at a sign that it has at depth zero, unless that is a times and there is a
plus. -/
theorem exists_splitPoint_of_hasOperator {text : List Char} {op : Operator}
    (h : HasOperator op 0 text) (hop : HasOperator .plus 0 text → op = .plus) :
    ∃ i, splitPoint text = some (i, op) := by
  cases op with
  | plus => exact exists_splitPoint_eq_plus_iff.mpr h
  | times => exact exists_splitPoint_eq_times_iff.mpr ⟨h, fun hplus => nomatch hop hplus⟩

/-- A text with a plus at top level is split at a plus. -/
theorem eq_plus_of_splitPoint {text : List Char} {i : Nat} {op : Operator}
    (h : splitPoint text = some (i, op)) (hplus : HasOperator .plus 0 text) : op = .plus := by
  cases op with
  | plus => rfl
  | times => exact absurd hplus (exists_splitPoint_eq_times_iff.mp ⟨i, h⟩).2

private theorem operands_ne_nil (op : Operator) (text : List Char) : operands op text ≠ [] :=
  piecesFrom_ne_nil op 0 text

/-- A text without the operator is its only operand. -/
theorem operands_of_not_hasOperator {op : Operator} {text : List Char}
    (h : ¬ HasOperator op 0 text) : operands op text = [text] := by
  suffices hfrom : ∀ d, ¬ HasOperator op d text → piecesFrom op d text = [text] from hfrom 0 h
  clear h
  induction text with
  | nil => exact fun _ _ => rfl
  | cons c rest ih =>
    intro d h
    rw [hasOperator_cons, not_or] at h
    rw [piecesFrom, if_neg h.1, ih _ h.2, List.modifyHead_cons]

/-- What comes before the first operator is the first operand. -/
theorem operands_append_symbol {op : Operator} {a : List Char} (b : List Char)
    (hdepth : depth a = 0) (h : ¬ HasOperator op 0 a) :
    operands op (a ++ op.symbol :: b) = a :: operands op b := by
  suffices hfrom : ∀ d, d + depth a = 0 → ¬ HasOperator op d a →
      piecesFrom op d (a ++ op.symbol :: b) = a :: piecesFrom op 0 b from
    hfrom 0 (by omega) h
  clear hdepth h
  induction a with
  | nil =>
    intro d hd _
    obtain rfl : d = 0 := by simpa [depth] using hd
    rw [List.nil_append, piecesFrom, if_pos ⟨rfl, rfl⟩]
  | cons c a ih =>
    intro d hd h
    rw [hasOperator_cons, not_or] at h
    rw [depth] at hd
    rw [List.cons_append, piecesFrom, if_neg h.1, ih _ (by omega) h.2, List.modifyHead_cons]

/-- To prove something of every text, look at its operands from the left. -/
theorem operands_induction (op : Operator) {motive : List Char → Prop}
    (single : ∀ text, ¬ HasOperator op 0 text → motive text)
    (append : ∀ a b, depth a = 0 → ¬ HasOperator op 0 a → motive b →
      motive (a ++ op.symbol :: b)) (text : List Char) : motive text := by
  by_cases h : HasOperator op 0 text
  · obtain ⟨a, b, htext, hdepth, hfirst⟩ := h.exists_first
    have hlt : b.length < text.length := by
      rw [htext, List.length_append, List.length_cons]
      omega
    rw [htext]
    exact append a b (by omega) hfirst (operands_induction op single append b)
  · exact single text h
termination_by text.length

/-- The operands on the two sides of any sign at depth zero are those of the whole text. -/
theorem operands_append {op : Operator} {a : List Char} (b : List Char) (hdepth : depth a = 0) :
    operands op (a ++ op.symbol :: b) = operands op a ++ operands op b := by
  induction a using operands_induction op with
  | single a h =>
    rw [operands_append_symbol b hdepth h, operands_of_not_hasOperator h, List.singleton_append]
  | append a c ha h ih =>
    rw [depth_append, depth, ha, weight_symbol] at hdepth
    rw [List.append_assoc, List.cons_append, operands_append_symbol _ ha h,
      operands_append_symbol _ ha h, ih (by omega), List.cons_append]

/-- The text is its operands with the sign between them. -/
theorem intercalate_operands (op : Operator) (text : List Char) :
    [op.symbol].intercalate (operands op text) = text := by
  induction text using operands_induction op with
  | single text h => rw [operands_of_not_hasOperator h, List.intercalate_singleton]
  | append a b hdepth h ih =>
    rw [operands_append_symbol b hdepth h, List.intercalate_cons_of_ne_nil (operands_ne_nil op b),
      ih, List.append_assoc, List.singleton_append]

/-- The operands of a balanced text are balanced. -/
theorem depth_eq_zero_of_mem_operands {op : Operator} {text piece : List Char}
    (hdepth : depth text = 0) (hpiece : piece ∈ operands op text) : depth piece = 0 := by
  induction text using operands_induction op with
  | single text h =>
    rw [operands_of_not_hasOperator h, List.mem_singleton] at hpiece
    exact hpiece ▸ hdepth
  | append a b ha h ih =>
    rw [operands_append_symbol b ha h, List.mem_cons] at hpiece
    obtain rfl | hpiece := hpiece
    · exact ha
    · rw [depth_append, depth, ha, weight_symbol] at hdepth
      exact ih (by omega) hpiece

/-- An operand does not have the operator that splits it off. -/
theorem not_hasOperator_of_mem_operands {op : Operator} {text piece : List Char}
    (h : piece ∈ operands op text) : ¬ HasOperator op 0 piece := by
  induction text using operands_induction op with
  | single text hnot =>
    rw [operands_of_not_hasOperator hnot, List.mem_singleton] at h
    exact h ▸ hnot
  | append a b hdepth hnot ih =>
    rw [operands_append_symbol b hdepth hnot, List.mem_cons] at h
    obtain rfl | h := h
    · exact hnot
    · exact ih h

/-- What stands at depth zero in an operand does so in the whole text. -/
theorem HasOperator.of_mem_operands {op other : Operator} {text piece : List Char}
    (hpiece : piece ∈ operands op text) (h : HasOperator other 0 piece) :
    HasOperator other 0 text := by
  induction text using operands_induction op with
  | single text hnot =>
    rw [operands_of_not_hasOperator hnot, List.mem_singleton] at hpiece
    exact hpiece ▸ h
  | append a b hdepth hnot ih =>
    rw [operands_append_symbol b hdepth hnot, List.mem_cons] at hpiece
    rw [hasOperator_append, hasOperator_cons, hdepth, weight_symbol]
    obtain rfl | hpiece := hpiece
    · exact .inl h
    · exact .inr (.inr (ih hpiece))

/-- An operator stands between two operands. -/
theorem two_le_length_operands {op : Operator} {text : List Char} (h : HasOperator op 0 text) :
    2 ≤ (operands op text).length := by
  obtain ⟨a, b, rfl, hdepth, hfirst⟩ := h.exists_first
  rw [operands_append_symbol b (by omega) hfirst, List.length_cons]
  exact Nat.succ_le_succ (List.length_pos_iff.mpr (operands_ne_nil op b))

/-- Nested operands make a nested text. -/
theorem IsNested.intercalate {op : Operator} {ps : List (List Char)}
    (hnested : ∀ p ∈ ps, IsNested p) : IsNested ([op.symbol].intercalate ps) := by
  induction ps with
  | nil => exact isNested_of_weight_eq_zero (by simp)
  | cons p ps ih =>
    obtain ⟨hp, hps⟩ := List.forall_mem_cons.mp hnested
    cases ps with
    | nil => rwa [List.intercalate_singleton]
    | cons q qs =>
      rw [List.intercalate_cons_cons]
      have hsymbol : IsNested [op.symbol] :=
        isNested_of_weight_eq_zero (by simp [weight_symbol])
      exact (hp.append hsymbol).append (ih hps)

/-- Texts put together with the sign of an operator are its operands again, if each is balanced and
has no such sign at depth zero itself. -/
theorem operands_intercalate {op : Operator} {ps : List (List Char)} (hne : ps ≠ [])
    (hdepth : ∀ p ∈ ps, depth p = 0) (hnot : ∀ p ∈ ps, ¬ HasOperator op 0 p) :
    operands op ([op.symbol].intercalate ps) = ps := by
  induction ps with
  | nil => exact absurd rfl hne
  | cons p ps ih =>
    obtain ⟨hp, hps⟩ := List.forall_mem_cons.mp hdepth
    obtain ⟨hpnot, hpsnot⟩ := List.forall_mem_cons.mp hnot
    cases ps with
    | nil => rw [List.intercalate_singleton, operands_of_not_hasOperator hpnot]
    | cons q qs =>
      rw [List.intercalate_cons_cons, List.append_assoc, List.singleton_append,
        operands_append_symbol _ hp hpnot, ih (List.cons_ne_nil q qs) hps hpsnot]

/-- No other operator comes in between operands. -/
theorem not_hasOperator_intercalate {op other : Operator} (hop : other ≠ op)
    {ps : List (List Char)} (hdepth : ∀ p ∈ ps, depth p = 0)
    (hnot : ∀ p ∈ ps, ¬ HasOperator other 0 p) :
    ¬ HasOperator other 0 ([op.symbol].intercalate ps) := by
  induction ps with
  | nil => exact not_hasOperator_nil other 0
  | cons p ps ih =>
    obtain ⟨hp, hps⟩ := List.forall_mem_cons.mp hdepth
    obtain ⟨hpnot, hpsnot⟩ := List.forall_mem_cons.mp hnot
    cases ps with
    | nil => rwa [List.intercalate_singleton]
    | cons q qs =>
      have hsymbol : op.symbol ≠ other.symbol := by
        revert hop
        cases op <;> cases other <;> decide
      rw [List.intercalate_cons_cons, List.append_assoc, List.singleton_append, hasOperator_append,
        hasOperator_cons, hp, weight_symbol]
      rintro (h | ⟨-, h⟩ | h)
      · exact hpnot h
      · exact hsymbol h
      · exact ih hps hpsnot h

/-- Two operands have an operator between them. -/
theorem hasOperator_intercalate {op : Operator} {ps : List (List Char)} (hlength : 2 ≤ ps.length)
    (hdepth : ∀ p ∈ ps, depth p = 0) : HasOperator op 0 ([op.symbol].intercalate ps) := by
  match ps with
  | p :: q :: qs =>
    refine ⟨p, [op.symbol].intercalate (q :: qs), ?_, ?_⟩
    · rw [List.intercalate_cons_cons, List.append_assoc, List.singleton_append]
    · rw [hdepth p List.mem_cons_self]
      rfl

end Rearrange.Scan
