import Mathlib.Logic.Relation
import Rearrange.Proofs.Parse.Reading

namespace Rearrange

open Relation (ReflTransGen)
open Scan

/-- A call of the reader on a part of the text that is being read. -/
structure Call where
  text : List Char
  part : List Char
deriving DecidableEq

/-- What comes of reading, with the calls that are made on the way, in their order. -/
structure Course (α : Type) where
  result : Except ParseError α
  calls : List Call

namespace Course

variable {α β : Type}

/-- The course with something else made of what is read in the end. -/
def map (f : α → β) (c : Course α) : Course β :=
  ⟨c.result.map f, c.calls⟩

/-- The course of reading a part, as it is called for by the text around it. -/
def calledFrom (text part : List Char) (c : Course α) : Course α :=
  ⟨c.result, ⟨text, part⟩ :: c.calls⟩

/-- Several courses one after the other. The first defect is the end of them all. -/
def all : List (Course α) → Course (List α)
  | [] => ⟨.ok [], []⟩
  | c :: cs =>
    match c.result with
    | .ok first => ⟨(all cs).result.map (first :: ·), c.calls ++ (all cs).calls⟩
    | .error e => ⟨.error e, c.calls⟩

/-- The course of reading a text without blanks. -/
def ofText (text : List Char) : Course Expr :=
  if text = [] then ⟨.error .emptyFragment, []⟩
  else
    match _hlead : lead text with
    | .hollow => ⟨.error .emptyGroup, []⟩
    | .enclosing inner =>
      ((ofText inner).calledFrom text inner).map fun body => .branch () .group [body]
    | .plain =>
      match _hsplit : splitPoint text with
      | some (_, op) =>
        (all ((operands op text).attach.map fun ⟨piece, _hpiece⟩ =>
          (ofText piece).calledFrom text piece)).map (.branch () (.chain op))
      | none =>
        match Literal.ofText? text with
        | some l => ⟨.ok (.literal () l), []⟩
        | none => ⟨.error (.invalidLiteral text), []⟩
termination_by text.length
decreasing_by
  · exact length_lt_of_lead _hlead
  · exact length_lt_of_mem_operands _hsplit _hpiece

/-- The texts that are read in the course of reading a text: the text itself, and every part that
the reader is called on. -/
def fragments (source : List Char) (c : Course α) : List (List Char) :=
  source :: c.calls.map Call.part

/-- The reader is called on a part of a text. -/
def CallsOn (c : Course α) (text part : List Char) : Prop :=
  ⟨text, part⟩ ∈ c.calls

end Course

/-- The course of reading a text as an expression. -/
def parseCourse (text : List Char) : Course Expr :=
  let source := Text.squeeze text
  if source = [] then ⟨.error .emptyFragment, []⟩
  else if isBalanced source then (Course.ofText source).map Tree.flatten
  else ⟨.error (.unbalanced source), []⟩

/-- The parenthesis at the start of a text is closed at an index: the search finds the index, there
is a closing parenthesis, the beginning of the text that ends there is the first one that is
balanced, and the parentheses between pair off. -/
structure Scan.ClosedAt (text : List Char) (close : Nat) : Prop where
  matchingClose_eq : matchingClose text = some close
  getElem?_eq : text[close]? = some ')'
  isBalanced_take : isBalanced (text.take (close + 1)) = true
  not_isBalanced_take : ∀ i, i < close → isBalanced (text.take (i + 1)) = false
  isNested : IsNested (text.take close).tail

/-- Reading a text calls for reading a part of it: what stands between the parentheses around all of
it, or an operand, if none of the operands before it has a defect. -/
inductive CallsFor : List Char → List Char → Prop where
  | interior {text inner : List Char} (hlead : lead text = .enclosing inner) : CallsFor text inner
  | operand {text piece : List Char} {i : Nat} {op : Operator} {before after : List (List Char)}
      (hlead : lead text = .plain) (hsplit : splitPoint text = some (i, op))
      (hpieces : operands op text = before ++ piece :: after)
      (hbefore : ∀ p ∈ before, ∃ t, (Outline.ofText p).result = .ok t) : CallsFor text piece

/-- What holds all along the course of reading a text. -/
structure Course.Regular {α : Type} (c : Course α) (source : List Char) : Prop where
  callsOn_iff : ∀ p ∈ c.fragments source, ∀ part, c.CallsOn p part ↔ CallsFor p part
  isBalanced : ∀ p ∈ c.fragments source, isBalanced p = true
  length_lt : ∀ text part, c.CallsOn text part → part.length < text.length
  closed : ∀ p ∈ c.fragments source, p.head? = some '(' → ∃ close, ClosedAt p close
  /-- Inside a group, whose interior is read by a call, all parentheses pair off. -/
  isNested : ∀ text inner, c.CallsOn text inner → lead text = .enclosing inner →
    ∀ p, ReflTransGen c.CallsOn inner p → IsNested p

variable {text part inner : List Char} {source : List Char}

namespace Scan

/-- A text that starts above depth zero and ends there reaches it at some character. -/
private theorem exists_firstZero {d : Int} (hd : 0 < d) (h : d + depth text = 0) :
    ∃ i, firstZero d text = some i := by
  induction text generalizing d with
  | nil =>
    rw [depth] at h
    omega
  | cons c rest ih =>
    rw [firstZero]
    by_cases hzero : d + weight c = 0
    · exact ⟨0, if_pos hzero⟩
    · have hweight := neg_one_le_weight c
      rw [depth] at h
      obtain ⟨i, hi⟩ := ih (d := d + weight c) (by omega) (by omega)
      exact ⟨i + 1, by rw [if_neg hzero, hi, Option.map_some]⟩

/-- A parenthesis at the start of a balanced text has a match. -/
private theorem exists_closedAt (hdepth : depth text = 0) (hopen : text.head? = some '(') :
    ∃ close, ClosedAt text close := by
  obtain ⟨rest, rfl⟩ := List.head?_eq_some_iff.mp hopen
  have hrest : 1 + depth rest = 0 := hdepth
  obtain ⟨i, hi⟩ := exists_firstZero Int.one_pos hrest
  have hclose : matchingClose ('(' :: rest) = some (i + 1) := by
    rw [matchingClose, List.tail_cons, hi, Option.map_some]
  obtain ⟨inner, after, rfl, hnested, hlength⟩ := matchingClose_cons_eq_some_iff.mp hclose
  obtain rfl : inner.length = i := Nat.succ.inj hlength
  refine ⟨inner.length + 1, hclose, by simp, ?_, fun j hj => ?_, by simpa using hnested⟩
  · have htake : ('(' :: (inner ++ ')' :: after)).take (inner.length + 1 + 1) =
        '(' :: inner ++ [')'] := by
      rw [List.take_succ_cons, List.append_cons, List.take_left' (by simp), List.cons_append]
    rw [htake, isBalanced_iff_depth]
    exact hnested.group.depth_eq
  · have htake : ('(' :: (inner ++ ')' :: after)).take (j + 1) = '(' :: inner.take j := by
      rw [List.take_succ_cons, List.take_append_of_le_length (Nat.le_of_lt_succ hj)]
    have hpos := hnested.depth_cons_pos (List.take_prefix j inner)
    rw [htake, Bool.eq_false_iff, ne_eq, isBalanced_iff_depth]
    omega

/-- The operands of a nested text are nested. -/
theorem IsNested.of_mem_operands {op : Operator} {piece : List Char} (h : IsNested text)
    (hpiece : piece ∈ operands op text) : IsNested piece := by
  induction text using operands_induction op with
  | single text hnot =>
    rw [operands_of_not_hasOperator hnot, List.mem_singleton] at hpiece
    exact hpiece ▸ h
  | append a b ha hnot ih =>
    have hsymbol : depth (a ++ [op.symbol]) = 0 := by
      rw [depth_append, ha, depth, depth, weight_symbol]
      rfl
    have hb : depth b = 0 := by
      have hdepth := h.depth_eq
      rw [List.append_cons, depth_append, hsymbol] at hdepth
      omega
    rw [operands_append_symbol b ha hnot, List.mem_cons] at hpiece
    obtain rfl | hpiece := hpiece
    · exact IsNested.of_append_append (a := []) h rfl ha
    · refine ih (IsNested.of_append_append (a := a ++ [op.symbol]) (c := []) ?_ hsymbol hb) hpiece
      simpa using h

end Scan

/-- A text in parentheses calls for what stands between them. -/
theorem callsFor_iff_of_enclosing (h : lead text = .enclosing inner) :
    CallsFor text part ↔ part = inner := by
  constructor
  · rintro (⟨hlead⟩ | ⟨hlead, -, -, -⟩)
    · exact Lead.enclosing.inj (hlead.symm.trans h)
    · cases hlead.symm.trans h
  · rintro rfl
    exact .interior h

/-- A text with operators calls for its operands, up to the first that fails. -/
theorem callsFor_iff_of_splitPoint {i : Nat} {op : Operator} (hlead : lead text = .plain)
    (hsplit : splitPoint text = some (i, op)) :
    CallsFor text part ↔ ∃ before after, operands op text = before ++ part :: after ∧
      ∀ p ∈ before, ∃ t, (Outline.ofText p).result = .ok t := by
  constructor
  · rintro (⟨henclosing⟩ | ⟨-, hsplit', hpieces, hbefore⟩)
    · cases henclosing.symm.trans hlead
    · obtain ⟨-, rfl⟩ := Prod.mk.inj (Option.some.inj (hsplit'.symm.trans hsplit))
      exact ⟨_, _, hpieces, hbefore⟩
  · rintro ⟨before, after, hpieces, hbefore⟩
    exact .operand hlead hsplit hpieces hbefore

theorem not_callsFor_of_hollow (h : lead text = .hollow) : ¬ CallsFor text part := by
  rintro (⟨hlead⟩ | ⟨hlead, -, -, -⟩) <;> cases hlead.symm.trans h

/-- A text without operators calls for nothing. -/
theorem not_callsFor_of_splitPoint_none (hlead : lead text = .plain)
    (hsplit : splitPoint text = none) : ¬ CallsFor text part := by
  rintro (⟨henclosing⟩ | ⟨-, hsplit', -, -⟩)
  · cases henclosing.symm.trans hlead
  · cases hsplit'.symm.trans hsplit

namespace CallsFor

/-- A text calls for shorter ones only. -/
theorem length_lt (h : CallsFor text part) : part.length < text.length := by
  cases h with
  | interior hlead => exact length_lt_of_lead hlead
  | operand _ hsplit hpieces _ =>
    exact length_lt_of_mem_operands hsplit (hpieces ▸ List.mem_append_cons_self)

/-- A balanced text calls for balanced ones only. -/
theorem depth_eq_zero (h : CallsFor text part) (hdepth : depth text = 0) : depth part = 0 := by
  cases h with
  | interior hlead => exact (lead_eq_enclosing_iff.mp hlead).2.1.depth_eq
  | operand _ _ hpieces _ =>
    exact depth_eq_zero_of_mem_operands hdepth (hpieces ▸ List.mem_append_cons_self)

/-- A nested text calls for nested ones only. -/
theorem isNested (h : CallsFor text part) (hnested : IsNested text) : IsNested part := by
  cases h with
  | interior hlead => exact (lead_eq_enclosing_iff.mp hlead).2.1
  | operand _ _ hpieces _ => exact hnested.of_mem_operands (hpieces ▸ List.mem_append_cons_self)

end CallsFor

namespace Course

variable {α β : Type}

/-- The calls of several courses are those of the first ones, up to one that ends in a defect. -/
private theorem mem_calls_all_map_iff {f : β → Course α} {bs : List β} {call : Call} :
    call ∈ (all (bs.map f)).calls ↔ ∃ before b after, bs = before ++ b :: after ∧
      (∀ d ∈ before, ∃ a, (f d).result = .ok a) ∧ call ∈ (f b).calls := by
  induction bs with
  | nil => simp [all]
  | cons b bs ih =>
    rw [List.map_cons, all]
    constructor
    · intro h
      split at h
      · next first hfirst =>
        obtain h | h := List.mem_append.mp h
        · exact ⟨[], b, bs, rfl, List.forall_mem_nil _, h⟩
        · obtain ⟨before, d, after, rfl, hbefore, hcall⟩ := ih.mp h
          refine ⟨b :: before, d, after, rfl, ?_, hcall⟩
          exact List.forall_mem_cons.mpr ⟨⟨first, hfirst⟩, hbefore⟩
      · exact ⟨[], b, bs, rfl, List.forall_mem_nil _, h⟩
    · rintro ⟨before, d, after, hbs, hbefore, hcall⟩
      cases before with
      | nil =>
        obtain ⟨rfl, rfl⟩ := List.cons.inj hbs
        split
        · exact List.mem_append_left _ hcall
        · exact hcall
      | cons b' before =>
        obtain ⟨rfl, rfl⟩ := List.cons.inj hbs
        obtain ⟨⟨first, hfirst⟩, hbefore⟩ := List.forall_mem_cons.mp hbefore
        rw [hfirst]
        exact List.mem_append_right _ (ih.mpr ⟨before, d, after, rfl, hbefore, hcall⟩)

/-- Courses one after the other come to what the outlines of the texts come to. -/
private theorem result_all_map {f : β → Course Expr} {g : β → Outline} {bs : List β}
    (h : ∀ b ∈ bs, (f b).result = (g b).result) :
    (all (bs.map f)).result = Outline.resultAll (bs.map g) := by
  induction bs with
  | nil => rfl
  | cons b bs ih =>
    obtain ⟨hb, hbs⟩ := List.forall_mem_cons.mp h
    rw [List.map_cons, List.map_cons, all, Outline.resultAll, ← hb, ← ih hbs]
    cases (f b).result with
    | error e => rfl
    | ok t => cases (all (bs.map f)).result <;> rfl

theorem ofText_nil : ofText [] = ⟨.error .emptyFragment, []⟩ := by
  rw [ofText, if_pos rfl]

theorem ofText_of_hollow (h : lead text = .hollow) : ofText text = ⟨.error .emptyGroup, []⟩ := by
  rw [ofText, if_neg (Outline.ne_nil_of_lead_ne_plain (by simp [h]))]
  split <;> simp_all

/-- The course of a group goes on with what the parentheses hold. -/
theorem ofText_of_enclosing (h : lead text = .enclosing inner) :
    ofText text =
      ((ofText inner).calledFrom text inner).map fun body => .branch () .group [body] := by
  rw [ofText, if_neg (Outline.ne_nil_of_lead_ne_plain (by simp [h]))]
  split <;> simp_all

/-- The course of a chain goes on with its operands, from left to right. -/
theorem ofText_of_splitPoint {i : Nat} {op : Operator} (hne : text ≠ [])
    (hlead : lead text = .plain) (hsplit : splitPoint text = some (i, op)) :
    ofText text = (all ((operands op text).map fun piece =>
      (ofText piece).calledFrom text piece)).map (.branch () (.chain op)) := by
  rw [ofText, if_neg hne]
  split
  · simp_all
  · simp_all
  · split
    · next heq =>
      obtain ⟨-, rfl⟩ : i = _ ∧ op = _ := by simpa [hsplit] using heq
      rw [List.map_attach_eq_pmap, List.pmap_eq_map]
    · simp_all

/-- A text without operators ends the course as a literal or a defect. -/
theorem ofText_of_splitPoint_none (hne : text ≠ []) (hlead : lead text = .plain)
    (hsplit : splitPoint text = none) :
    ofText text = ⟨(Literal.ofText? text).elim (.error (.invalidLiteral text)) fun l =>
      .ok (.literal () l), []⟩ := by
  rw [ofText, if_neg hne]
  split
  · simp_all
  · simp_all
  · split
    · simp_all
    · cases Literal.ofText? text <;> rfl

/-- Keeping the record makes no difference to what is read. -/
theorem result_ofText (text : List Char) : (ofText text).result = (Outline.ofText text).result := by
  induction text using ofText.induct with
  | case1 =>
    rw [ofText_nil, Outline.ofText_nil]
    rfl
  | case2 text hne hlead =>
    rw [ofText_of_hollow hlead, Outline.ofText_of_hollow hlead]
    rfl
  | case3 text hne inner hlead ih =>
    rw [ofText_of_enclosing hlead, Outline.ofText_of_enclosing hlead, Outline.result, ← ih]
    change (ofText inner).result.map _ = _
    cases (ofText inner).result <;> rfl
  | case4 text hne hlead i op hsplit ih =>
    let read : List Char → Course Expr := fun piece => (ofText piece).calledFrom text piece
    rw [ofText_of_splitPoint hne hlead hsplit, Outline.ofText_of_splitPoint hlead hsplit,
      Outline.result, ← result_all_map (f := read) ih, map]
    cases (all ((operands op text).map read)).result <;> rfl
  | case5 text hne hlead hsplit l hl =>
    rw [ofText_of_splitPoint_none hne hlead hsplit,
      Outline.ofText_of_splitPoint_none hne hlead hsplit, hl]
    rfl
  | case6 text hne hlead hsplit hl =>
    rw [ofText_of_splitPoint_none hne hlead hsplit,
      Outline.ofText_of_splitPoint_none hne hlead hsplit, hl]
    rfl

/-- The record holds the calls that the text itself calls for, and the records of the parts. -/
theorem mem_calls_ofText_iff {call : Call} : call ∈ (ofText text).calls ↔
    ∃ part, CallsFor text part ∧ (call = ⟨text, part⟩ ∨ call ∈ (ofText part).calls) := by
  by_cases hne : text = []
  · subst hne
    rw [ofText_nil]
    exact iff_of_false List.not_mem_nil fun ⟨part, hcall, _⟩ => Nat.not_lt_zero _ hcall.length_lt
  cases hlead : lead text with
  | hollow =>
    rw [ofText_of_hollow hlead]
    exact iff_of_false List.not_mem_nil fun ⟨part, hcall, _⟩ => not_callsFor_of_hollow hlead hcall
  | enclosing inner =>
    rw [ofText_of_enclosing hlead, map, calledFrom, List.mem_cons]
    simp only [callsFor_iff_of_enclosing hlead, exists_eq_left]
  | plain =>
    cases hsplit : splitPoint text with
    | none =>
      rw [ofText_of_splitPoint_none hne hlead hsplit]
      exact iff_of_false List.not_mem_nil fun ⟨part, hcall, _⟩ =>
        not_callsFor_of_splitPoint_none hlead hsplit hcall
    | some found =>
      obtain ⟨i, op⟩ := found
      rw [ofText_of_splitPoint hne hlead hsplit, map, mem_calls_all_map_iff]
      simp only [callsFor_iff_of_splitPoint hlead hsplit, calledFrom, result_ofText, List.mem_cons]
      constructor
      · rintro ⟨before, part, after, hpieces, hbefore, hcall⟩
        exact ⟨part, ⟨before, after, hpieces, hbefore⟩, hcall⟩
      · rintro ⟨part, ⟨before, after, hpieces, hbefore⟩, hcall⟩
        exact ⟨before, part, after, hpieces, hbefore, hcall⟩

/-- Every call in the record is called for, and comes from the text by calls that are. -/
theorem callsFor_of_mem_calls {text : List Char} {call : Call} (h : call ∈ (ofText text).calls) :
    CallsFor call.text call.part ∧ ReflTransGen CallsFor text call.text := by
  obtain ⟨part, hcall, rfl | h⟩ := mem_calls_ofText_iff.mp h
  · exact ⟨hcall, .refl⟩
  · obtain ⟨hlast, hreached⟩ := callsFor_of_mem_calls h
    exact ⟨hlast, .head hcall hreached⟩
termination_by text.length
decreasing_by exact hcall.length_lt

/-- The record of a text holds the record of every part that is reached from it. -/
theorem calls_subset_of_reflTransGen (h : ReflTransGen CallsFor text part) :
    (ofText part).calls ⊆ (ofText text).calls := by
  induction h using ReflTransGen.head_induction_on with
  | refl => exact List.Subset.refl _
  | head hcall _ ih =>
    exact fun call hmem => mem_calls_ofText_iff.mpr ⟨_, hcall, .inr (ih hmem)⟩

/-- Every fragment of a course is called for, directly or through others. -/
theorem reflTransGen_of_mem_fragments {p : List Char}
    (hp : p ∈ (ofText source).fragments source) : ReflTransGen CallsFor source p := by
  obtain rfl | hp := List.mem_cons.mp hp
  · exact .refl
  · obtain ⟨call, hcall, rfl⟩ := List.mem_map.mp hp
    obtain ⟨hlast, hreached⟩ := callsFor_of_mem_calls hcall
    exact hreached.tail hlast

/-- The calls in the record that a text makes are those that it calls for. -/
theorem callsOn_ofText_iff {p : List Char} (hp : p ∈ (ofText source).fragments source) :
    (ofText source).CallsOn p part ↔ CallsFor p part := by
  constructor
  · exact fun h => (callsFor_of_mem_calls h).1
  · exact fun h => calls_subset_of_reflTransGen (reflTransGen_of_mem_fragments hp)
      (mem_calls_ofText_iff.mpr ⟨part, h, .inl rfl⟩)

/-- All fragments of a balanced text are balanced. -/
theorem depth_eq_zero_of_mem_fragments (h : depth source = 0) {p : List Char}
    (hp : p ∈ (ofText source).fragments source) : depth p = 0 := by
  have hreached := reflTransGen_of_mem_fragments hp
  clear hp
  induction hreached with
  | refl => exact h
  | tail _ hcall ih => exact hcall.depth_eq_zero ih

/-- Reading a balanced text is regular all along. -/
theorem regular_ofText (h : depth source = 0) : (ofText source).Regular source := by
  constructor
  · exact fun p hp part => callsOn_ofText_iff hp
  · exact fun p hp => isBalanced_iff_depth.mpr (depth_eq_zero_of_mem_fragments h hp)
  · exact fun text part hcall => (callsFor_of_mem_calls hcall).1.length_lt
  · exact fun p hp hopen => exists_closedAt (depth_eq_zero_of_mem_fragments h hp) hopen
  · intro text inner _ hlead p hp
    induction hp with
    | refl => exact (lead_eq_enclosing_iff.mp hlead).2.1
    | tail _ hcall ih => exact (callsFor_of_mem_calls hcall).1.isNested ih

/-- A course stays regular when its result is replaced. -/
theorem Regular.map {c : Course α} (h : c.Regular source) (f : α → β) :
    (c.map f).Regular source :=
  ⟨h.callsOn_iff, h.isBalanced, h.length_lt, h.closed, h.isNested⟩

end Course

/-- The recorded course ends in the result of parsing. -/
theorem result_parseCourse (text : List Char) : (parseCourse text).result = parse text := by
  rw [parseCourse, parse, parseSource]
  split
  · rfl
  · split
    · rw [← Course.result_ofText]
      rfl
    · rfl

/-- If a text has as many opening as closing parentheses, so has every part that is read on the way,
and it is shorter than the text that calls for it. A parenthesis at the start of a part always has a
match, which is where the counts agree first, and inside a group all parentheses pair off. -/
theorem parse_calls_balanced_parts (text : List Char)
    (h : isBalanced (Text.squeeze text) = true) :
    (parseCourse text).result = parse text ∧
      (parseCourse text).Regular (Text.squeeze text) := by
  have hregular := Course.regular_ofText (isBalanced_iff_depth.mp h)
  refine ⟨result_parseCourse text, ?_⟩
  rw [parseCourse]
  split
  · next hnil =>
    rw [hnil]
    refine ⟨?_, ?_, nofun, ?_, nofun⟩
    · exact List.forall_mem_singleton.mpr fun part =>
        iff_of_false List.not_mem_nil fun hcall => Nat.not_lt_zero _ hcall.length_lt
    · exact List.forall_mem_singleton.mpr rfl
    · exact List.forall_mem_singleton.mpr nofun
  · exact hregular.map Tree.flatten

/-- Neither the sum nor the product in it is nested, but what is inside the group is. The second
factor has a defect, so the second term is never read. -/
theorem parse_calls_balanced_parts_misnested :
    let text := "(a+(b))*) (+c".toList
    let source := "(a+(b))*)(+c".toList
    isBalanced (Text.squeeze text) = true ∧ ¬ IsNested source ∧
      (parseCourse text).result = parse text ∧ (parseCourse text).Regular source ∧
      (parseCourse text).fragments source = [source, "(a+(b))*)(".toList, "(a+(b))".toList,
        "a+(b)".toList, ['a'], "(b)".toList, ['b'], ")(".toList] := by
  intro text source
  have hbalanced : isBalanced (Text.squeeze text) = true := by decide
  have hmisnested : ¬ IsNested source := fun h =>
    absurd (h.depth_nonneg "(a+(b))*)".toList (by decide)) (by decide)
  obtain ⟨hresult, hregular⟩ := parse_calls_balanced_parts text hbalanced
  exact ⟨hbalanced, hmisnested, hresult, hregular, by decide +kernel⟩

end Rearrange
