import Rearrange.Proofs.Parse.Grammar

namespace Rearrange

open Scan

namespace Scan

/-- A place to split a text at, as `splitPoint`, but the choice is free among the signs of the
operator: they are numbered from the left, and past the last sign from the left again. -/
def chosenSplit (choice : Nat) (text : List Char) : Option (Nat × Operator) :=
  (splitPoint text).bind fun (_, op) =>
    let signs := (topLevelOperators text).filter (·.2 = op)
    signs[choice % signs.length]?

/-- The signs that can be chosen are those of the operator that the text is split at. -/
theorem exists_chosenSplit_eq_some_iff {text : List Char} {i : Nat} {op : Operator} :
    (∃ choice, chosenSplit choice text = some (i, op)) ↔
      (∃ j, splitPoint text = some (j, op)) ∧
        ∃ a b, text = a ++ op.symbol :: b ∧ a.length = i ∧ depth a = 0 := by
  rw [← mem_topLevelOperators_iff]
  constructor
  · rintro ⟨choice, h⟩
    obtain ⟨⟨j, op'⟩, hsplit, hget⟩ := Option.bind_eq_some_iff.mp h
    obtain ⟨hsign, hop⟩ := List.mem_filter.mp (List.mem_of_getElem? hget)
    obtain rfl : op = op' := by simpa using hop
    exact ⟨⟨j, hsplit⟩, hsign⟩
  · rintro ⟨⟨j, hsplit⟩, hsign⟩
    have hfilter : (i, op) ∈ (topLevelOperators text).filter (·.2 = op) := by
      simpa using hsign
    obtain ⟨choice, hlt, hget⟩ := List.mem_iff_getElem.mp hfilter
    refine ⟨choice, ?_⟩
    rw [chosenSplit, hsplit, Option.bind_some]
    simp only [Nat.mod_eq_of_lt hlt]
    rw [List.getElem?_eq_getElem hlt, hget]

/-- There is an operator to choose when there is one at all. -/
theorem chosenSplit_eq_none_iff {choice : Nat} {text : List Char} :
    chosenSplit choice text = none ↔ splitPoint text = none := by
  rw [chosenSplit]
  cases hsplit : splitPoint text with
  | none => simp
  | some found =>
    have hsign : found ∈ (topLevelOperators text).filter (·.2 = found.2) := by
      simpa using mem_topLevelOperators_of_splitPoint hsplit
    have hlt := Nat.mod_lt choice (List.length_pos_of_mem hsign)
    simp [List.getElem?_eq_getElem hlt]

/-- The chosen operator is in the text. -/
theorem lt_length_of_chosenSplit {choice i : Nat} {text : List Char} {op : Operator}
    (h : chosenSplit choice text = some (i, op)) : i < text.length := by
  obtain ⟨-, a, b, rfl, rfl, -⟩ := exists_chosenSplit_eq_some_iff.mp ⟨choice, h⟩
  rw [List.length_append, List.length_cons]
  omega

end Scan

/-- One of the two parts that a text is cut into. -/
inductive Half where
  | left
  | right
deriving DecidableEq, Repr

/-- Which sign to cut at, by number. The answer may differ for every text that is come to, known by
the halves that were taken to get there. -/
abbrev Strategy := List Half → Nat

/-- Reads a text without blanks by halves. The tree is not flattened. -/
def readHalves (choose : Strategy) (taken : List Half) (text : List Char) :
    Except ParseError Expr :=
  if text = [] then .error .emptyFragment
  else
    match _hlead : lead text with
    | .hollow => .error .emptyGroup
    | .enclosing inner => do
      let body ← readHalves choose taken inner
      return .branch () .group [body]
    | .plain =>
      match _hsplit : chosenSplit (choose taken) text with
      | some (i, op) => do
        let left ← readHalves choose (taken ++ [.left]) (text.take i)
        let right ← readHalves choose (taken ++ [.right]) (text.drop (i + 1))
        return .branch () (.chain op) [left, right]
      | none =>
        match Literal.ofText? text with
        | some l => .ok (.literal () l)
        | none => .error (.invalidLiteral text)
termination_by text.length
decreasing_by
  · exact length_lt_of_lead _hlead
  · have := lt_length_of_chosenSplit _hsplit
    rw [List.length_take]
    omega
  · have := lt_length_of_chosenSplit _hsplit
    rw [List.length_drop]
    omega

/-- Reads a text as an expression by halves: after the same checks of the whole text as `parse`, and
flattened once at the end. -/
def parseHalves (choose : Strategy) (text : List Char) : Except ParseError Expr :=
  let source := Text.squeeze text
  if source = [] then .error .emptyFragment
  else if isBalanced source then (readHalves choose [] source).map Tree.flatten
  else .error (.unbalanced source)

namespace Outline

private theorem resultAll_append (os ps : List Outline) :
    resultAll (os ++ ps) = do
      let ts ← resultAll os
      let us ← resultAll ps
      return ts ++ us := by
  induction os with
  | nil =>
    rw [List.nil_append]
    cases resultAll ps <;> rfl
  | cons o os ih =>
    rw [List.cons_append, resultAll, resultAll, ih]
    cases o.result with
    | error e => rfl
    | ok t =>
      cases resultAll os with
      | error e => rfl
      | ok ts => cases resultAll ps <;> rfl

variable {text : List Char} {op : Operator}

/-- A text that is split stands for the chain of its operands, or has the defect of the first of
them that has one. -/
theorem result_of_hasOperator (h : HasOperator op 0 text)
    (hop : HasOperator .plus 0 text → op = .plus) :
    (ofText text).result =
      (resultAll ((operands op text).map ofText)).map (.branch () (.chain op)) := by
  cases hlead : lead text with
  | plain =>
    obtain ⟨i, hsplit⟩ := exists_splitPoint_of_hasOperator h hop
    rw [ofText_of_splitPoint hlead hsplit, result]
    cases resultAll ((operands op text).map ofText) <;> rfl
  | hollow =>
    -- The hollow group is found at once here, and in the first operand by the recursion.
    obtain ⟨a, b, rfl, hdepth, hfirst⟩ := h.exists_first
    rw [Int.zero_add] at hdepth
    have hleada := (lead_append_symbol_eq_hollow_iff op b hdepth).mp hlead
    rw [ofText_of_hollow hlead, operands_append_symbol b hdepth hfirst, List.map_cons, resultAll,
      ofText_of_hollow hleada]
    rfl
  | enclosing inner =>
    obtain ⟨rfl, hnested, -⟩ := lead_eq_enclosing_iff.mp hlead
    exact absurd h (hnested.not_hasOperator_group op)

/-- What a text stands for gives to a chain the operands that the text has. -/
theorem map_inline_result (hop : HasOperator .plus 0 text → op = .plus) :
    (ofText text).result.map op.inline = resultAll ((operands op text).map ofText) := by
  by_cases h : HasOperator op 0 text
  · rw [result_of_hasOperator h hop]
    cases resultAll ((operands op text).map ofText) with
    | error e => rfl
    | ok ts => exact congrArg Except.ok (Operator.inline_chain op () ts)
  · rw [operands_of_not_hasOperator h, List.map_singleton]
    cases hresult : (ofText text).result with
    | error e => rw [resultAll, hresult]; rfl
    | ok t =>
      obtain ⟨hcanonical, rfl⟩ := isCanonical_and_flat_of_result hresult
      rw [resultAll, hresult, Except.map,
        Operator.inline_of_kind_ne (hcanonical.kind_ne_of_not_hasOperator h)]
      rfl

/-- Whichever sign a text is cut at, it stands for the halves joined, or has the defect of the left
one if that has one, and else that of the right one. -/
theorem result_ofText_append {a b : List Char} (hdepth : depth a = 0)
    (hop : HasOperator .plus 0 (a ++ op.symbol :: b) → op = .plus) :
    (ofText (a ++ op.symbol :: b)).result = do
      let t ← (ofText a).result
      let u ← (ofText b).result
      return Tree.join op t u := by
  have hleft : HasOperator .plus 0 a → op = .plus := fun h =>
    hop (hasOperator_append.mpr (.inl h))
  have hright : HasOperator .plus 0 b → op = .plus := fun h => by
    refine hop (hasOperator_append.mpr (.inr (hasOperator_cons.mpr (.inr ?_))))
    rwa [hdepth, weight_symbol]
  rw [result_of_hasOperator ⟨a, b, rfl, by omega⟩ hop, operands_append b hdepth, List.map_append,
    resultAll_append, ← map_inline_result hleft, ← map_inline_result hright]
  cases (ofText a).result with
  | error e => rfl
  | ok t => cases (ofText b).result <;> rfl

/-- What is parsed is flat already. -/
theorem map_flatten_result (text : List Char) :
    (ofText text).result.map Tree.flatten = (ofText text).result := by
  cases h : (ofText text).result with
  | error e => rfl
  | ok t =>
    obtain ⟨hcanonical, -⟩ := isCanonical_and_flat_of_result h
    exact congrArg Except.ok (Tree.flatten_eq_self hcanonical.isFlat)

end Outline

open Outline

section Equations

variable (choose : Strategy) (taken : List Half) {text : List Char}

private theorem readHalves_nil : readHalves choose taken [] = .error .emptyFragment := by
  rw [readHalves, if_pos rfl]

theorem readHalves_of_hollow (h : lead text = .hollow) :
    readHalves choose taken text = .error .emptyGroup := by
  rw [readHalves, if_neg (ne_nil_of_lead_ne_plain (by simp [h]))]
  split <;> simp_all

/-- A group is read from what its parentheses hold. -/
theorem readHalves_of_enclosing {inner : List Char} (h : lead text = .enclosing inner) :
    readHalves choose taken text =
      (readHalves choose taken inner).map fun body => .branch () .group [body] := by
  rw [readHalves, if_neg (ne_nil_of_lead_ne_plain (by simp [h]))]
  split
  · simp_all
  · next inner' hinner =>
    obtain rfl : inner' = inner := Lead.enclosing.inj (hinner.symm.trans h)
    cases readHalves choose taken inner' <;> rfl
  · simp_all

/-- A text is read in the halves before and after the chosen operator. -/
theorem readHalves_of_chosenSplit {i : Nat} {op : Operator} (hlead : lead text = .plain)
    (hsplit : chosenSplit (choose taken) text = some (i, op)) :
    readHalves choose taken text = do
      let left ← readHalves choose (taken ++ [.left]) (text.take i)
      let right ← readHalves choose (taken ++ [.right]) (text.drop (i + 1))
      return .branch () (.chain op) [left, right] := by
  have hne : text ≠ [] := by
    rintro rfl
    exact absurd (lt_length_of_chosenSplit hsplit) (Nat.not_lt_zero i)
  rw [readHalves, if_neg hne]
  split
  · simp_all
  · simp_all
  · split
    · next heq =>
      obtain ⟨rfl, rfl⟩ := Prod.mk.inj (Option.some.inj (heq.symm.trans hsplit))
      rfl
    · simp_all

/-- A text without operators is read as a literal. -/
theorem readHalves_of_chosenSplit_eq_none (hne : text ≠ []) (hlead : lead text = .plain)
    (hsplit : chosenSplit (choose taken) text = none) :
    readHalves choose taken text =
      (Literal.ofText? text).elim (.error (.invalidLiteral text)) fun l => .ok (.literal () l) := by
  rw [readHalves, if_neg hne]
  split
  · simp_all
  · simp_all
  · split
    · simp_all
    · cases Literal.ofText? text <;> rfl

end Equations

/-- Two operands are flattened by joining them. -/
private theorem Tree.flatten_pair (op : Operator) (t u : Expr) :
    (Tree.branch () (.chain op) [t, u]).flatten = Tree.join op t.flatten u.flatten := by
  simp [Shape.merge, Tree.join]

/-- Flattening what is read by halves gives what the outline of the text stands for, at every text
that reading comes to. -/
theorem map_flatten_readHalves (choose : Strategy) (taken : List Half) (text : List Char) :
    (readHalves choose taken text).map Tree.flatten = (ofText text).result := by
  induction taken, text using readHalves.induct choose with
  | case1 taken =>
    rw [readHalves_nil, ofText_nil]
    rfl
  | case2 taken text hne hlead =>
    rw [readHalves_of_hollow choose taken hlead, ofText_of_hollow hlead]
    rfl
  | case3 taken text hne inner hlead ih =>
    rw [readHalves_of_enclosing choose taken hlead, ofText_of_enclosing hlead, result, ← ih]
    cases readHalves choose taken inner with
    | error e => rfl
    | ok body => exact congrArg Except.ok (Tree.flatten_branch () .group [body])
  | case4 taken text hne hlead i op hsplit ihleft ihright =>
    obtain ⟨⟨j, hchosen⟩, a, b, htext, rfl, hdepth⟩ :=
      exists_chosenSplit_eq_some_iff.mp ⟨_, hsplit⟩
    rw [readHalves_of_chosenSplit choose taken hlead hsplit]
    have hparts : text.take a.length = a ∧ text.drop (a.length + 1) = b := by
      rw [htext]
      constructor
      · exact List.take_left
      · rw [← List.drop_drop, List.drop_left, List.drop_succ_cons, List.drop_zero]
    rw [hparts.1] at ihleft ⊢
    rw [hparts.2] at ihright ⊢
    rw [htext] at hchosen ⊢
    -- The two halves, read at once, join to what all operands are read as.
    rw [result_ofText_append hdepth (eq_plus_of_splitPoint hchosen), ← ihleft, ← ihright]
    cases readHalves choose (taken ++ [.left]) a with
    | error e => rfl
    | ok left =>
      cases readHalves choose (taken ++ [.right]) b with
      | error e => rfl
      | ok right => exact congrArg Except.ok (Tree.flatten_pair op left right)
  | case5 taken text hne hlead hsplit l hl =>
    rw [readHalves_of_chosenSplit_eq_none choose taken hne hlead hsplit,
      ofText_of_splitPoint_none hne hlead (chosenSplit_eq_none_iff.mp hsplit), hl]
    exact congrArg Except.ok (Tree.flatten_literal () l)
  | case6 taken text hne hlead hsplit hl =>
    rw [readHalves_of_chosenSplit_eq_none choose taken hne hlead hsplit,
      ofText_of_splitPoint_none hne hlead (chosenSplit_eq_none_iff.mp hsplit), hl]
    rfl

/-- Reading by halves has the outcome of reading, with the same tree or the same defect, whichever
sign every text is cut at. -/
theorem parseHalves_eq_parse (choose : Strategy) (text : List Char) :
    parseHalves choose text = parse text := by
  rw [parseHalves, parse, parseSource, map_flatten_readHalves, map_flatten_result]

end Rearrange
