import Rearrange.Proofs.Parse.Viable

namespace Rearrange

open Scan

/-- What a defect says about the place where it is reported: the text before that place, the
characters it is about, and the text behind them. Different numbers of parentheses are a defect of
the whole text, which has no such place. -/
def ParseError.Describes (u f v : List Char) : ParseError → Prop
  | unbalanced _ => False
  | emptyFragment =>
    f = [] ∧ PastOperand v ∧ ¬ Derives .expression u ∧ ∀ c w, v = c :: w → ¬ Viable (u ++ [c])
  | emptyGroup => f = ['(', ')'] ∧ ¬ Viable (u ++ f)
  | invalidLiteral text =>
    text = f ∧ f ≠ [] ∧ f.count '(' = f.count ')' ∧
      (∀ op : Operator, ∀ p q, f = p ++ op.symbol :: q → p.count '(' ≠ p.count ')') ∧
      ¬ Derives .literal f ∧ ¬ Viable (u ++ f)

private theorem intercalate_cons (x : Char) (p : List Char) (qs : List (List Char)) :
    [x].intercalate (p :: qs) = p ++ qs.flatMap (x :: ·) := by
  induction qs generalizing p with
  | nil => simp
  | cons q qs ih =>
    rw [List.intercalate_cons_cons, ih]
    simp

/-- One operand of a chain with the signs that come before and behind it. -/
private theorem intercalate_append_cons (x : Char) (ps qs : List (List Char)) (p : List Char) :
    [x].intercalate (ps ++ p :: qs) = ps.flatMap (· ++ [x]) ++ p ++ qs.flatMap (x :: ·) := by
  induction ps with
  | nil => exact intercalate_cons x p qs
  | cons r ps ih =>
    rw [List.cons_append, List.intercalate_cons_of_ne_nil (by simp), ih]
    simp

/-- Operands with operators after them may come at an open end. -/
theorem Opens.flatMap {u : List Char} (h : Opens u) (op : Operator) {ps : List (List Char)}
    (hps : ∀ p ∈ ps, Derives .expression p) : Opens (u ++ ps.flatMap (· ++ [op.symbol])) := by
  induction ps generalizing u with
  | nil => simpa using h
  | cons p ps ih =>
    obtain ⟨hp, hps⟩ := List.forall_mem_cons.mp hps
    have hopens := ih (h.chain hp op) hps
    simpa using hopens

/-- Operands with operators after them leave the depth as it is. -/
private theorem depth_flatMap_symbol (op : Operator) {ps : List (List Char)}
    (hps : ∀ p ∈ ps, Derives .expression p) : depth (ps.flatMap (· ++ [op.symbol])) = 0 := by
  induction ps with
  | nil => rfl
  | cons p ps ih =>
    obtain ⟨hp, hps⟩ := List.forall_mem_cons.mp hps
    rw [List.flatMap_cons, depth_append, depth_append, hp.isNested.depth_eq, ih hps, depth, depth,
      weight_symbol]
    rfl

/-- Operands with operators before them may come after an operand. -/
theorem PastOperand.flatMap {v : List Char} (h : PastOperand v) (op : Operator)
    (qs : List (List Char)) : PastOperand (qs.flatMap (op.symbol :: ·) ++ v) := by
  cases qs with
  | nil => exact h
  | cons q qs => exact pastOperand_cons op.symbol_mem_past _

namespace Outline

/-- Several outlines report the defect of the first one that has any. -/
private theorem resultAll_map_eq_error {β : Type} {f : β → Outline} {bs : List β} {e : ParseError}
    (h : resultAll (bs.map f) = .error e) :
    ∃ before b after, bs = before ++ b :: after ∧ (∀ c ∈ before, ∃ t, (f c).result = .ok t) ∧
      (f b).result = .error e := by
  induction bs with
  | nil => contradiction
  | cons b bs ih =>
    rw [List.map_cons, resultAll] at h
    cases hfirst : (f b).result with
    | error e' =>
      rw [hfirst] at h
      obtain rfl := Except.error.inj h
      exact ⟨[], b, bs, rfl, List.forall_mem_nil _, hfirst⟩
    | ok t =>
      cases hothers : resultAll (bs.map f) with
      | ok ts => rw [hfirst, hothers] at h; contradiction
      | error e' =>
        rw [hfirst, hothers] at h
        obtain rfl := Except.error.inj h
        obtain ⟨before, c, after, rfl, hbefore, hc⟩ := ih hothers
        exact ⟨b :: before, c, after, rfl, List.forall_mem_cons.mpr ⟨⟨t, hfirst⟩, hbefore⟩, hc⟩

/-- The defect of a chain is that of the first operand with any, and the operands before it are
expressions. -/
theorem exists_operand_of_resultAll {op : Operator} {text : List Char} {e : ParseError}
    (h : resultAll ((operands op text).map ofText) = .error e) :
    ∃ (before : List (List Char)) (piece : List Char) (after : List (List Char)),
      piece ∈ operands op text ∧ (∀ p ∈ before, Derives .expression p) ∧
      text = before.flatMap (· ++ [op.symbol]) ++ piece ++ after.flatMap (op.symbol :: ·) ∧
      (ofText piece).result = .error e := by
  obtain ⟨before, piece, after, hpieces, hbefore, hpiece⟩ := resultAll_map_eq_error h
  refine ⟨before, piece, after, by simp [hpieces], fun p hp => ?_, ?_, hpiece⟩
  · obtain ⟨t, ht⟩ := hbefore p hp
    exact derives_expression_iff.mpr ⟨t, isCanonical_and_flat_of_result ht⟩
  · rw [← intercalate_append_cons, ← hpieces, intercalate_operands]

/-- The defect of a balanced part that stands where an operand comes lies at a place that everything
before it leads up to. -/
theorem exists_describes_of_result {text : List Char} {e : ParseError}
    (h : (ofText text).result = .error e) (hdepth : depth text = 0) {u v : List Char}
    (hu : Opens u) (hv : PastOperand v) (hnested : IsNested text ∨ depth u = 0) :
    ∃ a f b, text = a ++ f ++ b ∧ Opens (u ++ a) ∧ e.Describes (u ++ a) f (b ++ v) := by
  induction text using ofText.induct generalizing u v with
  | case1 =>
    rw [ofText_nil] at h
    obtain rfl := Except.error.inj h
    refine ⟨[], [], [], rfl, by simpa using hu, rfl, hv, ?_, ?_⟩
    · simpa using hu.atOperand.not_derives
    · rintro c w rfl
      simpa using hu.atOperand.not_viable_concat hv.mem_of_cons
  | case2 text hne hlead =>
    rw [ofText_of_hollow hlead] at h
    obtain rfl := Except.error.inj h
    obtain ⟨b, rfl⟩ := lead_eq_hollow_iff.mp hlead
    have hclose := hu.group.atOperand.not_viable_concat (c := ')') (by decide)
    exact ⟨[], ['(', ')'], b, rfl, by simpa using hu, rfl, by simpa using hclose⟩
  | case3 text hne inner hlead ih =>
    rw [ofText_of_enclosing hlead, result] at h
    obtain ⟨rfl, hinner, -⟩ := lead_eq_enclosing_iff.mp hlead
    cases hresult : (ofText inner).result with
    | ok t => rw [hresult] at h; contradiction
    | error e' =>
      rw [hresult] at h
      obtain rfl := Except.error.inj h
      have hclose : PastOperand (')' :: v) := pastOperand_cons (by decide) v
      obtain ⟨a, f, b, rfl, hopens, hdescribes⟩ :=
        ih hresult hinner.depth_eq hu.group hclose (.inl hinner)
      exact ⟨'(' :: a, f, b ++ [')'], by simp, by simpa using hopens, by simpa using hdescribes⟩
  | case4 text hne hlead i op hsplit ih =>
    rw [ofText_of_splitPoint hlead hsplit, result] at h
    cases hresult : resultAll ((operands op text).map ofText) with
    | ok parts => rw [hresult] at h; contradiction
    | error e' =>
      rw [hresult] at h
      obtain rfl := Except.error.inj h
      obtain ⟨before, piece, after, hmem, hbefore, htext, hpiece⟩ :=
        exists_operand_of_resultAll hresult
      have hzero := depth_flatMap_symbol op hbefore
      have hpiecezero := depth_eq_zero_of_mem_operands hdepth hmem
      have hpiecenested :
          IsNested piece ∨ depth (u ++ before.flatMap (· ++ [op.symbol])) = 0 := by
        rw [depth_append, hzero, Int.add_zero]
        exact hnested.imp_left fun hnested => (htext ▸ hnested).of_append_append hzero hpiecezero
      obtain ⟨a, f, b, rfl, hopens, hdescribes⟩ := ih piece hmem hpiece hpiecezero
        (hu.flatMap op hbefore) (hv.flatMap op after) hpiecenested
      exact ⟨before.flatMap (· ++ [op.symbol]) ++ a, f, b ++ after.flatMap (op.symbol :: ·),
        by simp [htext], by simpa using hopens, by simpa using hdescribes⟩
  | case5 text hne hlead hsplit l hl =>
    rw [ofText_of_splitPoint_none hne hlead hsplit, hl] at h
    contradiction
  | case6 text hne hlead hsplit hl =>
    rw [ofText_of_splitPoint_none hne hlead hsplit, hl] at h
    obtain rfl := Except.error.inj h
    have hnot := splitPoint_eq_none_iff.mp hsplit
    have hliteral : ¬ Derives .literal text := by
      rw [← isLiteralText_iff_derives]
      intro htext
      simp [Literal.ofText?, htext] at hl
    refine ⟨[], text, [], by simp, by simpa using hu, rfl, hne, ?_, ?_, hliteral, ?_⟩
    · rw [depth_eq_count_sub] at hdepth
      omega
    · rintro op p q htext hcount
      refine hnot op ⟨p, q, htext, ?_⟩
      rw [depth_eq_count_sub]
      omega
    · simpa using hu.atOperand.not_viable_append hne hdepth hlead hnot hliteral hnested

end Outline

/-- If the numbers of parentheses agree, the outline decides, also about a text of blanks. -/
theorem parse_of_count_eq {text : List Char}
    (hcount : (Text.squeeze text).count '(' = (Text.squeeze text).count ')') :
    parse text = (Outline.ofText (Text.squeeze text)).result.map Tree.flatten := by
  rw [parse, parseSource]
  split
  · next hnil =>
    rw [hnil, Outline.ofText_nil]
    rfl
  · have hbalanced : isBalanced (Text.squeeze text) = true := beq_iff_eq.mpr hcount
    rw [if_pos hbalanced]

/-- A text is refused as unbalanced before anything else is looked at. -/
theorem parse_of_count_ne {text : List Char}
    (hcount : (Text.squeeze text).count '(' ≠ (Text.squeeze text).count ')') :
    parse text = .error (.unbalanced (Text.squeeze text)) := by
  have hne : Text.squeeze text ≠ [] := fun hnil => hcount (by rw [hnil]; rfl)
  have hbalanced : ¬ isBalanced (Text.squeeze text) = true := mt beq_iff_eq.mp hcount
  rw [parse, parseSource, if_neg hne, if_neg hbalanced]

/-- A defect of a balanced text stands after a viable part of it. -/
theorem exists_describes_of_parse {text : List Char} {e : ParseError}
    (hcount : (Text.squeeze text).count '(' = (Text.squeeze text).count ')')
    (h : parse text = .error e) :
    ∃ u f v, Text.squeeze text = u ++ f ++ v ∧ Viable u ∧ AtOperand u ∧ e.Describes u f v := by
  rw [parse_of_count_eq hcount] at h
  cases hresult : (Outline.ofText (Text.squeeze text)).result with
  | ok t => rw [hresult] at h; contradiction
  | error e' =>
    rw [hresult] at h
    obtain rfl := Except.error.inj h
    have hdepth : depth (Text.squeeze text) = 0 := by
      rw [depth_eq_count_sub]
      omega
    obtain ⟨u, f, v, hsplit, hopens, hdescribes⟩ :=
      Outline.exists_describes_of_result hresult hdepth opens_nil (.inl rfl) (.inr rfl)
    rw [List.append_nil] at hdescribes
    exact ⟨u, f, v, hsplit, hopens.viable, hopens.atOperand, hdescribes⟩

/-- Different numbers of parentheses are reported whatever else is wrong with a text, and nothing
else is reported as such. In every other text that is no expression, the reported defect is the
leftmost one: some expression begins with all that stands before the characters it is about, and an
operand is due there. -/
theorem parse_error_leftmost (text : List Char) :
    ((∃ source, parse text = .error (.unbalanced source)) ↔
      (Text.squeeze text).count '(' ≠ (Text.squeeze text).count ')') ∧
    ((Text.squeeze text).count '(' = (Text.squeeze text).count ')' →
      ¬ Derives .expression (Text.squeeze text) →
      ∃ e u f v, parse text = .error e ∧ Text.squeeze text = u ++ f ++ v ∧ Viable u ∧
        AtOperand u ∧ e.Describes u f v) := by
  refine ⟨⟨?_, fun hcount => ⟨_, parse_of_count_ne hcount⟩⟩, fun hcount hderives => ?_⟩
  · rintro ⟨source, h⟩ hcount
    obtain ⟨u, f, v, -, -, -, hdescribes⟩ := exists_describes_of_parse hcount h
    exact hdescribes
  · cases h : parse text with
    | ok t => exact absurd (exists_parse_iff_derives.mp ⟨t, h⟩) hderives
    | error e =>
      obtain ⟨u, f, v, hdescribes⟩ := exists_describes_of_parse hcount h
      exact ⟨e, u, f, v, rfl, hdescribes⟩

/-- The parentheses of the second term agree in number and close before they open. -/
theorem parse_error_leftmost_misnested :
    let text := " 1+)x(".toList
    (Text.squeeze text).count '(' = (Text.squeeze text).count ')' ∧
      ¬ Derives .expression (Text.squeeze text) ∧
      ∃ e u f v, parse text = .error e ∧ Text.squeeze text = u ++ f ++ v ∧ Viable u ∧
        AtOperand u ∧ e.Describes u f v := by
  intro text
  have hcount : (Text.squeeze text).count '(' = (Text.squeeze text).count ')' := by decide
  have hderives : ¬ Derives .expression (Text.squeeze text) := by
    intro h
    exact absurd (h.isNested.depth_nonneg ['1', '+', ')'] ⟨['x', '('], by decide⟩) (by decide)
  exact ⟨hcount, hderives, (parse_error_leftmost text).2 hcount hderives⟩

end Rearrange
