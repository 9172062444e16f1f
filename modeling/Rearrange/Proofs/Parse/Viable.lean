import Rearrange.Proofs.Parse.Grammar

namespace Rearrange

open Scan

/-- Some expression begins with the text. -/
def Viable (u : List Char) : Prop :=
  ∃ w, Derives .expression (u ++ w)

/-- Behind the text comes an operand: the text is empty or ends in a plus, a times or an opening
parenthesis. -/
def AtOperand (u : List Char) : Prop :=
  u = [] ∨ ∃ v, ∃ c ∈ ['+', '*', '('], u = v ++ [c]

/-- Before the text an operand may end: the text is empty or starts with a plus, a times or a
closing parenthesis. -/
def PastOperand (v : List Char) : Prop :=
  v = [] ∨ ∃ c ∈ ['+', '*', ')'], ∃ w, v = c :: w

private theorem atOperand_concat {c : Char} (hc : c ∈ ['+', '*', '(']) (v : List Char) :
    AtOperand (v ++ [c]) :=
  .inr ⟨v, c, hc, rfl⟩

/-- What comes next depends on the last character only. -/
theorem AtOperand.of_append_cons {v u : List Char} {c : Char} (h : AtOperand (v ++ c :: u)) :
    AtOperand u := by
  obtain hnil | ⟨w, d, hd, heq⟩ := h
  · exact absurd hnil (List.append_ne_nil_of_right_ne_nil _ (List.cons_ne_nil c u))
  · obtain rfl | ⟨u', e, rfl⟩ := List.eq_nil_or_concat u
    · exact .inl rfl
    · rw [List.concat_eq_append, ← List.cons_append, ← List.append_assoc] at heq
      obtain ⟨-, hlast⟩ := List.append_inj' heq rfl
      obtain rfl : e = d := by simpa using hlast
      exact .inr ⟨u', e, hd, List.concat_eq_append⟩

private theorem not_atOperand_concat {c : Char} (hc : c ∉ ['+', '*', '(']) (v : List Char) :
    ¬ AtOperand (v ++ [c]) := by
  rintro (hnil | ⟨w, d, hd, heq⟩)
  · exact absurd hnil (List.append_ne_nil_of_right_ne_nil _ (List.cons_ne_nil c []))
  · obtain ⟨-, hlast⟩ := List.append_inj' heq rfl
    obtain rfl : c = d := by simpa using hlast
    exact hc hd

theorem pastOperand_cons {c : Char} (hc : c ∈ ['+', '*', ')']) (w : List Char) :
    PastOperand (c :: w) :=
  .inr ⟨c, hc, w, rfl⟩

/-- What may follow an operand may be followed by more of it. -/
theorem PastOperand.append {v w : List Char} (hv : PastOperand v) (hw : PastOperand w) :
    PastOperand (v ++ w) := by
  obtain rfl | ⟨c, hc, v', rfl⟩ := hv
  · exact hw
  · exact pastOperand_cons hc (v' ++ w)

/-- Only operators and closing parentheses come after an operand. -/
theorem PastOperand.mem_of_cons {c : Char} {w : List Char} (h : PastOperand (c :: w)) :
    c ∈ ['+', '*', ')'] := by
  obtain hnil | ⟨d, hd, v, heq⟩ := h
  · exact absurd hnil (List.cons_ne_nil c w)
  · exact (List.cons.inj heq).1 ▸ hd

/-- What comes after an operand is an operator or a closing parenthesis. -/
theorem PastOperand.eq_symbol_or_of_cons {c : Char} {w : List Char} (h : PastOperand (c :: w)) :
    (∃ op : Operator, c = op.symbol) ∨ c = ')' := by
  have hc := h.mem_of_cons
  rw [List.mem_cons, List.mem_cons, List.mem_singleton] at hc
  obtain rfl | rfl | rfl := hc
  · exact .inl ⟨.plus, rfl⟩
  · exact .inl ⟨.times, rfl⟩
  · exact .inr rfl

theorem Operator.symbol_mem_past (op : Operator) : op.symbol ∈ ['+', '*', ')'] := by
  cases op <;> decide

private theorem Operator.symbol_mem_at (op : Operator) : op.symbol ∈ ['+', '*', '('] := by
  cases op <;> decide

/-- Expressions are written with nested parentheses. -/
theorem Derives.isNested {w : List Char} (h : Derives .expression w) : IsNested w := by
  obtain ⟨t, ht, rfl⟩ := derives_expression_iff.mp h
  exact ht.isNested_flat

/-- Nothing in the grammar is written as an empty text. -/
theorem Derives.ne_nil {c : Category} {w : List Char} (h : Derives c w) : w ≠ [] := by
  obtain ⟨t, ht, rfl, -⟩ := h.exists_isCanonical
  exact ht.flat_ne_nil

/-- None of the four signs is part of a literal. -/
theorem Derives.notMem_of_literal {w : List Char} (h : Derives .literal w) {c : Char}
    (hc : c ∈ ['+', '*', '(', ')']) : c ∉ w := by
  let l : Literal := ⟨w, isLiteralText_iff_derives.mpr h⟩
  intro hmem
  have hchar := l.isDigit_or_isLower_of_mem hmem
  simp only [List.mem_cons, List.not_mem_nil, or_false] at hc
  obtain rfl | rfl | rfl | rfl := hc <;> exact absurd hchar (by decide)

/-- What begins a literal is one, if it is anything. -/
theorem Derives.literal_of_append {w a : List Char} (h : Derives .literal (w ++ a)) (hne : w ≠ []) :
    Derives .literal w := by
  generalize hwa : w ++ a = x at h
  cases h with
  | number _ hdigits =>
    subst hwa
    exact .number hne fun c hc => hdigits c (List.mem_append_left a hc)
  | letter hc =>
    obtain ⟨rfl, -⟩ | ⟨rfl, -⟩ := List.append_eq_singleton_iff.mp hwa
    · exact absurd rfl hne
    · exact .letter hc

/-- An expression is a sum. -/
theorem Derives.sum_of_expression {w : List Char} (h : Derives .expression w) :
    Derives .sum w := by
  cases h with
  | expression_sum h => exact h
  | expression_operand h => exact .sum_product (.product_operand h)

/-- Sums are added by adding the products of the second one after the other. -/
theorem Derives.sum_plus_sum {v w : List Char} (hv : Derives .sum v) (hw : Derives .sum w) :
    Derives .sum (v ++ '+' :: w) := by
  generalize hc : Category.sum = c at hw
  induction hw with
  | plus ha hb iha ihb =>
    rw [← List.cons_append, ← List.append_assoc]
    exact .plus (iha rfl) hb
  | sum_product hw ih => exact .plus hv hw
  | _ => cases hc

/-- Behind a product and a times, the first product of a sum goes on with the product. -/
theorem Derives.product_times_sum {v w : List Char} (hv : Derives .product v)
    (hw : Derives .sum w) : Derives .sum (v ++ '*' :: w) := by
  generalize hc : Category.sum = c at hw
  induction hw with
  | plus ha hb iha ihb =>
    rw [← List.cons_append, ← List.append_assoc]
    exact .plus (iha rfl) hb
  | sum_product hw ih => exact .sum_product (.times hv hw)
  | _ => cases hc

/-- Any two expressions with a sign between them are an expression. As a text it need not fall apart
into the two. -/
theorem Derives.chain {v w : List Char} (hv : Derives .expression v) (hw : Derives .expression w)
    (op : Operator) : Derives .expression (v ++ op.symbol :: w) := by
  have hsum := hw.sum_of_expression
  apply Derives.expression_sum
  cases op with
  | plus => exact hv.sum_of_expression.sum_plus_sum hsum
  | times =>
    cases hv.sum_of_expression with
    | plus ha hb =>
      rw [List.append_assoc, List.cons_append]
      exact ha.sum_plus_sum (hb.product_times_sum hsum)
    | sum_product hv => exact hv.product_times_sum hsum

/-- Behind the text comes an operand, and one continuation completes it with any expression in
between. -/
structure Opens (u : List Char) : Prop where
  atOperand : AtOperand u
  completes : ∃ v, ∀ x, Derives .expression x → Derives .expression (u ++ x ++ v)

theorem opens_nil : Opens [] := by
  refine ⟨.inl rfl, [], fun x hx => ?_⟩
  rwa [List.nil_append, List.append_nil]

/-- Where an expression may start, the text can be completed. -/
theorem Opens.viable {u : List Char} (h : Opens u) : Viable u := by
  obtain ⟨v, hv⟩ := h.completes
  have hzero : Derives .expression ['0'] :=
    .expression_operand (.operand_literal (isLiteralText_iff_derives.mp rfl))
  exact ⟨'0' :: v, by simpa using hv ['0'] hzero⟩

/-- An expression may start after an opening parenthesis. -/
theorem Opens.group {u : List Char} (h : Opens u) : Opens (u ++ ['(']) := by
  obtain ⟨v, hv⟩ := h.completes
  refine ⟨atOperand_concat (by decide) u, ')' :: v, fun x hx => ?_⟩
  have hgroup := hv _ (.expression_operand (.group hx))
  simpa using hgroup

/-- An expression may start after another one and an operator. -/
theorem Opens.chain {u y : List Char} (h : Opens u) (hy : Derives .expression y) (op : Operator) :
    Opens (u ++ y ++ [op.symbol]) := by
  obtain ⟨v, hv⟩ := h.completes
  refine ⟨atOperand_concat op.symbol_mem_at _, v, fun x hx => ?_⟩
  have hchain := hv _ (hy.chain hx op)
  simpa using hchain

/-- The text starts with a literal or group, and behind it comes a sign that ends operands or
nothing. -/
def StartsOperand (r : List Char) : Prop :=
  ∃ x rest, r = x ++ rest ∧ Derives .operand x ∧ PastOperand rest

private theorem not_startsOperand_nil : ¬ StartsOperand [] := by
  rintro ⟨x, rest, heq, hx, -⟩
  exact hx.ne_nil (List.append_eq_nil_iff.mp heq.symm).1

/-- What starts an operand does so with more text after it. -/
theorem StartsOperand.append {r v : List Char} (h : StartsOperand r) (hv : PastOperand v) :
    StartsOperand (r ++ v) := by
  obtain ⟨x, rest, rfl, hx, hrest⟩ := h
  exact ⟨x, rest ++ v, List.append_assoc _ _ _, hx, hrest.append hv⟩

/-- Wherever an operand comes in the text, one starts. -/
def FillsOperands (z : List Char) : Prop :=
  ∀ u r, z = u ++ r → AtOperand u → StartsOperand r

/-- In a text of two parts an operand comes in the first part, or behind the start of the second. -/
theorem FillsOperands.startsOperand_or {v w u r : List Char} (h : FillsOperands v)
    (hw : PastOperand w) (hsplit : v ++ w = u ++ r) (hu : AtOperand u) :
    StartsOperand r ∨ ∃ c a, u = v ++ c :: a ∧ w = c :: a ++ r := by
  obtain ⟨a, rfl, rfl⟩ | ⟨b, rfl, rfl⟩ := List.append_eq_append_iff.mp hsplit
  · cases a with
    | nil => exact absurd (h _ [] (by simp) hu) not_startsOperand_nil
    | cons c a => exact .inr ⟨c, a, rfl, rfl⟩
  · exact .inl ((h _ _ rfl hu).append hw)

/-- Places for operands are filled before and after what comes between them. -/
theorem FillsOperands.append_cons {v w : List Char} {c : Char} (hv : FillsOperands v)
    (hw : FillsOperands w) (hc : c ∈ ['+', '*', ')']) : FillsOperands (v ++ c :: w) := by
  intro u r hsplit hu
  obtain h | ⟨d, a, rfl, hrest⟩ := hv.startsOperand_or (pastOperand_cons hc w) hsplit hu
  · exact h
  · exact hw a r (List.cons.inj hrest).2 hu.of_append_cons

/-- A group fills the place of an operand. -/
theorem FillsOperands.group {w : List Char} (h : FillsOperands w) (hw : Derives .expression w) :
    FillsOperands ('(' :: w ++ [')']) := by
  intro u r hsplit hu
  cases u with
  | nil => exact ⟨_, [], by simpa using hsplit.symm, .group hw, .inl rfl⟩
  | cons d u =>
    have hinner : w ++ [')'] = u ++ r := (List.cons.inj hsplit).2
    have hinside : AtOperand u := AtOperand.of_append_cons (v := []) hu
    have hclose : PastOperand [')'] := pastOperand_cons (by decide) []
    obtain hr | ⟨e, a, rfl, hrest⟩ := h.startsOperand_or hclose hinner hinside
    · exact hr
    · obtain ⟨rfl, hnil⟩ := List.cons.inj hrest
      obtain ⟨rfl, -⟩ := List.append_eq_nil_iff.mp hnil.symm
      exact absurd hinside (not_atOperand_concat (by decide) w)

/-- A literal fills the place of an operand. -/
theorem Derives.fillsOperands_of_literal {w : List Char} (h : Derives .literal w) :
    FillsOperands w := by
  rintro u r rfl (rfl | ⟨v, c, hc, rfl⟩)
  · exact ⟨r, [], (List.append_nil r).symm, .operand_literal h, .inl rfl⟩
  · have hmem : c ∈ v ++ [c] ++ r := by simp
    exact absurd hmem (h.notMem_of_literal (List.mem_append_left [')'] hc))

/-- Wherever an operand comes in a text that is derived, a literal or group starts. -/
theorem Derives.fillsOperands {c : Category} {z : List Char} (h : Derives c z) :
    FillsOperands z := by
  induction h with
  | expression_sum h ih => exact ih
  | expression_operand h ih => exact ih
  | plus hv hw ihv ihw => exact ihv.append_cons ihw (by decide)
  | sum_product h ih => exact ih
  | times hv hw ihv ihw => exact ihv.append_cons ihw (by decide)
  | product_operand h ih => exact ih
  | group h ih => exact ih.group h
  | operand_literal h ih => exact ih
  | number hne hdigits => exact (Derives.number hne hdigits).fillsOperands_of_literal
  | letter hc => exact (Derives.letter hc).fillsOperands_of_literal

/-- Where an operand comes, an expression does not end. -/
theorem AtOperand.not_derives {u : List Char} (hu : AtOperand u) : ¬ Derives .expression u :=
  fun h => not_startsOperand_nil (h.fillsOperands u [] (List.append_nil u).symm hu)

/-- Where an operand comes, a sign that ends operands cannot stand. -/
theorem AtOperand.not_viable_concat {u : List Char} (hu : AtOperand u) {c : Char}
    (hc : c ∈ ['+', '*', ')']) : ¬ Viable (u ++ [c]) := by
  rintro ⟨w, h⟩
  obtain ⟨x, rest, heq, hx, -⟩ := h.fillsOperands u _ (List.append_assoc u [c] w) hu
  cases hx with
  | group hinner =>
    obtain rfl : c = '(' := (List.cons.inj heq).1
    exact absurd hc (by decide)
  | operand_literal hx =>
    have hmem : c ∈ x := by
      cases x with
      | nil => exact absurd rfl hx.ne_nil
      | cons d x => exact (List.cons.inj heq).1 ▸ List.mem_cons_self
    have hsigns : ['+', '*', ')'] ⊆ ['+', '*', '(', ')'] := by decide
    exact hx.notMem_of_literal (hsigns hc) hmem

/-- A balanced text that begins an operand is all of it. -/
theorem Derives.literal_or_enclosing_of_append {t a : List Char} (h : Derives .operand (t ++ a))
    (hne : t ≠ []) (hdepth : depth t = 0) :
    Derives .literal t ∨ ∃ inner, lead t = .enclosing inner := by
  generalize hta : t ++ a = x at h
  cases h with
  | operand_literal h => exact .inl ((hta ▸ h).literal_of_append hne)
  | @group inner h =>
    have hnested := h.isNested
    obtain ⟨c, t, rfl⟩ := List.exists_cons_of_ne_nil hne
    obtain ⟨rfl, hinner⟩ := List.cons.inj hta
    obtain rfl | hstart := List.prefix_concat_iff.mp ⟨a, hinner⟩
    · exact .inr ⟨inner, lead_eq_enclosing_iff.mpr ⟨rfl, hnested, h.ne_nil⟩⟩
    · have hpos := hnested.depth_cons_pos hstart
      omega

/-- Where an operand comes, no balanced text can stand that is neither cut at a sign nor taken for a
group nor a literal. If the text is not nested, it counts how deep it stands. -/
theorem AtOperand.not_viable_append {u t : List Char} (hu : AtOperand u) (hne : t ≠ [])
    (hdepth : depth t = 0) (hlead : lead t = .plain) (hnot : ∀ op, ¬ HasOperator op 0 t)
    (hliteral : ¬ Derives .literal t) (hnested : IsNested t ∨ depth u = 0) :
    ¬ Viable (u ++ t) := by
  rintro ⟨w, h⟩
  obtain ⟨x, rest, heq, hx, hrest⟩ := h.fillsOperands u _ (List.append_assoc u t w) hu
  -- The place is filled by an operand that does not begin with the text, so it ends inside of it.
  -- What follows it there is an operator or closes what was not opened, and the text has neither.
  have hwhole : ∀ a, x ≠ t ++ a := by
    rintro a rfl
    obtain ht | ⟨inner, ht⟩ := hx.literal_or_enclosing_of_append hne hdepth
    · exact hliteral ht
    · simp [ht] at hlead
  obtain ⟨a, ha, -⟩ | ⟨b, rfl, rfl⟩ := List.append_eq_append_iff.mp heq
  · exact hwhole a ha
  cases b with
  | nil => exact hwhole [] (by simp)
  | cons c b =>
    have hxdepth : depth x = 0 := (Derives.expression_operand hx).isNested.depth_eq
    obtain ⟨op, rfl⟩ | rfl := hrest.eq_symbol_or_of_cons
    · exact hnot op ⟨x, b, rfl, by rw [hxdepth]; rfl⟩
    · have hclose : depth (x ++ [')']) = -1 := by rw [depth_append, hxdepth]; rfl
      obtain hnested | hu := hnested
      · have := hnested.depth_nonneg (x ++ [')']) ⟨b, by simp⟩
        omega
      · have := h.isNested.depth_nonneg (u ++ (x ++ [')'])) ⟨b ++ w, by simp⟩
        rw [depth_append] at this
        omega

end Rearrange
