import Mathlib.Data.List.Forall2
import Rearrange.Parse.Basic
import Rearrange.Proofs.Parse.Printed

namespace Rearrange

open Scan

namespace Outline

theorem ofText_nil : ofText [] = .defect .emptyFragment := by
  rw [ofText, if_pos rfl]

/-- A text with parentheses around it is not empty. -/
theorem ne_nil_of_lead_ne_plain {text : List Char} (h : lead text ≠ .plain) : text ≠ [] := by
  rintro rfl
  exact h rfl

theorem ofText_of_hollow {text : List Char} (h : lead text = .hollow) :
    ofText text = .defect .emptyGroup := by
  rw [ofText, if_neg (ne_nil_of_lead_ne_plain (by simp [h]))]
  split <;> simp_all

/-- A text in parentheses is read as a group. -/
theorem ofText_of_enclosing {text inner : List Char} (h : lead text = .enclosing inner) :
    ofText text = .group (ofText inner) := by
  rw [ofText, if_neg (ne_nil_of_lead_ne_plain (by simp [h]))]
  split <;> simp_all

/-- A text with operators is read as a chain of its operands. -/
theorem ofText_of_splitPoint {text : List Char} {i : Nat} {op : Operator}
    (hlead : lead text = .plain) (hsplit : splitPoint text = some (i, op)) :
    ofText text = .chain op text ((operands op text).map ofText) := by
  have hne : text ≠ [] := by
    rintro rfl
    simp [splitPoint, topLevelOperators, operatorsFrom] at hsplit
  rw [ofText, if_neg hne]
  split
  · simp_all
  · simp_all
  · split
    · next heq =>
      obtain ⟨-, rfl⟩ : i = _ ∧ op = _ := by simpa [hsplit] using heq
      rw [List.map_attach_eq_pmap, List.pmap_eq_map]
    · simp_all

/-- A text without operators is read as a literal, or is a defect. -/
theorem ofText_of_splitPoint_none {text : List Char} (hne : text ≠ [])
    (hlead : lead text = .plain) (hsplit : splitPoint text = none) :
    ofText text = (Literal.ofText? text).elim (.defect (.invalidLiteral text)) .literal := by
  rw [ofText, if_neg hne]
  split
  · simp_all
  · simp_all
  · split
    · simp_all
    · cases Literal.ofText? text <;> rfl

/-- Where all parts have results, the whole has them in order. -/
private theorem resultAll_map_eq_ok {β : Type} {f : β → Outline} {g : β → Expr} {bs : List β}
    (h : ∀ b ∈ bs, (f b).result = .ok (g b)) : resultAll (bs.map f) = .ok (bs.map g) := by
  induction bs with
  | nil => rfl
  | cons b bs ih =>
    obtain ⟨hb, hbs⟩ := List.forall_mem_cons.mp h
    rw [List.map_cons, resultAll, hb, ih hbs]
    rfl

/-- What holds of every outline that stands for an expression holds all along a list of them. -/
private theorem forall₂_of_resultAll_map_eq_ok {β : Type} {f : β → Outline} {P : Expr → β → Prop}
    {bs : List β} {ts : List Expr} (h : resultAll (bs.map f) = .ok ts)
    (hP : ∀ b ∈ bs, ∀ t, (f b).result = .ok t → P t b) : List.Forall₂ P ts bs := by
  induction bs generalizing ts with
  | nil =>
    obtain rfl := Except.ok.inj h
    exact .nil
  | cons b bs ih =>
    obtain ⟨hb, hbs⟩ := List.forall_mem_cons.mp hP
    rw [List.map_cons, resultAll] at h
    cases hfirst : (f b).result with
    | error e => rw [hfirst] at h; contradiction
    | ok t =>
      cases hothers : resultAll (bs.map f) with
      | error e => rw [hfirst, hothers] at h; contradiction
      | ok us =>
        rw [hfirst, hothers] at h
        obtain rfl := Except.ok.inj h
        exact .cons (hb t hfirst) (ih hothers hbs)

/-- What is read between the operators that a text is split at may stand there without parentheses,
since a text is split at a times only where there is no plus. -/
theorem admits_kind_of_mem_operands {text : List Char} {i : Nat} {op : Operator}
    (hsplit : splitPoint text = some (i, op)) {part : Expr} (hpart : part.IsCanonical)
    (hpiece : part.flat ∈ operands op text) : op.admits part.kind = true := by
  have hkind := hpart.kind_ne_of_not_hasOperator (not_hasOperator_of_mem_operands hpiece)
  cases op with
  | plus => exact Operator.plus_admits_iff.mpr hkind
  | times =>
    have hplus := (exists_splitPoint_eq_times_iff.mp ⟨i, hsplit⟩).2
    refine Operator.times_admits_iff.mpr fun other => ?_
    cases other with
    | times => exact hkind
    | plus => exact hpart.kind_ne_of_not_hasOperator fun hin => hplus (hin.of_mem_operands hpiece)

/-- If the outline of a text stands for an expression, the expression is canonical and the text says
it. The text need not be balanced. -/
theorem isCanonical_and_flat_of_result {text : List Char} {t : Expr}
    (h : (ofText text).result = .ok t) : t.IsCanonical ∧ t.flat = text := by
  induction text using ofText.induct generalizing t with
  | case1 =>
    rw [ofText_nil] at h
    contradiction
  | case2 text hne hlead =>
    rw [ofText_of_hollow hlead] at h
    contradiction
  | case3 text hne inner hlead ih =>
    rw [ofText_of_enclosing hlead, result] at h
    obtain ⟨htext, -, -⟩ := lead_eq_enclosing_iff.mp hlead
    cases hinner : (ofText inner).result with
    | error e => rw [hinner] at h; contradiction
    | ok u =>
      rw [hinner] at h
      obtain rfl := Except.ok.inj h
      obtain ⟨hu, hflat⟩ := ih hinner
      exact ⟨.group () hu, by rw [Tree.flat_group, hflat, htext]⟩
  | case4 text hne hlead i op hsplit ih =>
    rw [ofText_of_splitPoint hlead hsplit, result] at h
    cases hparts : resultAll ((operands op text).map ofText) with
    | error e => rw [hparts] at h; contradiction
    | ok parts =>
      rw [hparts] at h
      obtain rfl := Except.ok.inj h
      obtain ⟨hcanonical, hread⟩ := (List.forall₂_and_left parts (operands op text)).mp
        (forall₂_of_resultAll_map_eq_ok hparts fun piece hpiece u hu => ih piece hpiece hu)
      -- The operands with their signs between them are the text again.
      have hflats : parts.map Tree.flat = operands op text := by
        rw [← List.forall₂_eq_eq_eq, List.forall₂_map_left_iff]
        exact hread
      have hop := hasOperator_of_splitPoint hsplit
      refine ⟨.chain () ?_ (fun part hpart => ?_) hcanonical, ?_⟩
      · rw [← List.length_map (f := Tree.flat), hflats]
        exact two_le_length_operands hop
      · have hpiece : part.flat ∈ operands op text := hflats ▸ List.mem_map_of_mem hpart
        exact admits_kind_of_mem_operands hsplit (hcanonical part hpart) hpiece
      · rw [Tree.flat_chain, hflats, intercalate_operands]
  | case5 text hne hlead hsplit l hl =>
    rw [ofText_of_splitPoint_none hne hlead hsplit, hl] at h
    obtain rfl := Except.ok.inj h
    refine ⟨.literal () l, ?_⟩
    rw [Tree.flat_literal]
    exact Literal.text_of_ofText?_eq_some hl
  | case6 text hne hlead hsplit hl =>
    rw [ofText_of_splitPoint_none hne hlead hsplit, hl] at h
    contradiction

/-- The text of a canonical tree is read as the tree. -/
theorem result_ofText_flat {t : Expr} (h : t.IsCanonical) : (ofText t.flat).result = .ok t := by
  induction h with
  | literal a l =>
    rw [Tree.flat_literal]
    have hsplit : splitPoint l.text = none :=
      splitPoint_eq_none_iff.mpr fun op => not_hasOperator_of_not_mem (l.symbol_not_mem op)
    rw [ofText_of_splitPoint_none l.text_ne_nil l.lead_text hsplit, l.ofText?_text]
    rfl
  | @group a c hc ih =>
    have hlead : lead (Tree.branch a .group [c]).flat = .enclosing c.flat :=
      lead_eq_enclosing_iff.mpr ⟨Tree.flat_group a c [], hc.isNested_flat, hc.flat_ne_nil⟩
    rw [ofText_of_enclosing hlead, result, ih]
    rfl
  | @chain a op cs hlength hkind hcs ih =>
    have hchain : (Tree.branch a (.chain op) cs).IsCanonical := .chain a hlength hkind hcs
    obtain ⟨i, hsplit⟩ := hchain.exists_splitPoint_flat
    rw [ofText_of_splitPoint hchain.lead_flat_chain hsplit, hchain.operands_flat, List.map_map,
      result, resultAll_map_eq_ok (f := ofText ∘ Tree.flat) (g := id) ih, List.map_id]
    rfl

end Outline

/-- A text is read as an expression exactly if the expression is canonical and its flat text is the
text without blanks. -/
theorem parse_eq_ok_iff {text : List Char} {t : Expr} :
    parse text = .ok t ↔ t.IsCanonical ∧ t.flat = Text.squeeze text := by
  rw [parse, parseSource]
  constructor
  · intro h
    split at h
    · contradiction
    · split at h
      · cases hresult : (Outline.ofText (Text.squeeze text)).result with
        | error e => rw [hresult] at h; contradiction
        | ok u =>
          rw [hresult] at h
          obtain ⟨hcanonical, hflat⟩ := Outline.isCanonical_and_flat_of_result hresult
          have hu : u.flatten = t := Except.ok.inj h
          rw [Tree.flatten_eq_self hcanonical.isFlat] at hu
          exact hu ▸ ⟨hcanonical, hflat⟩
      · contradiction
  · rintro ⟨hcanonical, hflat⟩
    rw [← hflat, if_neg hcanonical.flat_ne_nil,
      if_pos (isBalanced_iff_depth.mpr hcanonical.depth_flat),
      Outline.result_ofText_flat hcanonical]
    exact congrArg Except.ok (Tree.flatten_eq_self hcanonical.isFlat)

/-- The text of a canonical tree is read as the tree, whatever its tags. -/
theorem parse_flat {α : Type} {t : Tree α} (h : t.IsCanonical) : parse t.flat = .ok t.erase := by
  rw [parse_eq_ok_iff, Tree.isCanonical_erase_iff, Tree.flat_erase, Tree.squeeze_flat]
  exact ⟨h, rfl⟩

end Rearrange
