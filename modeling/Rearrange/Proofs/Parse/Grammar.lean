import Mathlib.Data.List.Induction
import Rearrange.Proofs.Parse.Reading

namespace Rearrange

/-- The nonterminals of the grammar: E, A, M, X and L. -/
inductive Category where
  | expression
  | sum
  | product
  | operand
  | literal
deriving DecidableEq, Repr

/-- The grammar derives the text from the nonterminal. -/
inductive Derives : Category → List Char → Prop where
  | expression_sum {w : List Char} (h : Derives .sum w) : Derives .expression w
  | expression_operand {w : List Char} (h : Derives .operand w) : Derives .expression w
  | plus {v w : List Char} (hv : Derives .sum v) (hw : Derives .product w) :
      Derives .sum (v ++ '+' :: w)
  | sum_product {w : List Char} (h : Derives .product w) : Derives .sum w
  | times {v w : List Char} (hv : Derives .product v) (hw : Derives .product w) :
      Derives .product (v ++ '*' :: w)
  | product_operand {w : List Char} (h : Derives .operand w) : Derives .product w
  | group {w : List Char} (h : Derives .expression w) : Derives .operand ('(' :: w ++ [')'])
  | operand_literal {w : List Char} (h : Derives .literal w) : Derives .operand w
  | number {w : List Char} (hne : w ≠ []) (hdigits : ∀ c ∈ w, '0' ≤ c ∧ c ≤ '9') :
      Derives .literal w
  | letter {c : Char} (hc : 'a' ≤ c ∧ c ≤ 'z') : Derives .literal [c]

/-- The literals of the grammar are those of the scanner. -/
theorem isLiteralText_iff_derives {w : List Char} :
    isLiteralText w = true ↔ Derives .literal w := by
  constructor
  · intro h
    rw [isLiteralText.eq_def] at h
    split at h
    · contradiction
    · next c =>
      rcases Bool.or_eq_true_iff.mp h with h | h
      · exact .number (List.cons_ne_nil c []) (by simpa using isDigit_iff.mp h)
      · exact .letter (isLower_iff.mp h)
    · next hne _ =>
      exact .number hne fun c hc => isDigit_iff.mp (List.all_eq_true.mp h c hc)
  · intro h
    cases h with
    | number hne hdigits =>
      have hall : w.all Char.isDigit = true :=
        List.all_eq_true.mpr fun c hc => isDigit_iff.mpr (hdigits c hc)
      rw [isLiteralText.eq_def]
      split
      · contradiction
      · simp_all
      · exact hall
    | letter hc => simp [isLiteralText, isLower_iff.mpr hc]

/-- The kinds of trees whose text belongs to a nonterminal. -/
def Category.Covers : Category → Kind → Prop
  | expression, _ => True
  | sum, _ => True
  | product, k => Operator.plus.admits k = true
  | operand, k => Operator.times.admits k = true
  | literal, k => k = .literal

/-- Two lists of pieces are joined by one more separator. -/
theorem intercalate_append {x : Char} {ps qs : List (List Char)} (hps : ps ≠ []) (hqs : qs ≠ []) :
    [x].intercalate (ps ++ qs) = [x].intercalate ps ++ x :: [x].intercalate qs := by
  induction ps with
  | nil => exact absurd rfl hps
  | cons p ps ih =>
    cases ps with
    | nil => simp [List.intercalate_cons_of_ne_nil hqs]
    | cons q ps =>
      rw [List.cons_append, List.intercalate_cons_of_ne_nil (by simp), ih (List.cons_ne_nil q ps)]
      simp

namespace Tree

variable {α : Type}

/-- Cutting a chain into its operands does not change the text. -/
theorem intercalate_flat_inline (op : Operator) (t : Tree α) :
    [op.symbol].intercalate ((op.inline t).map flat) = t.flat := by
  by_cases hkind : t.kind = .branch (.chain op)
  · cases t with
    | literal a l => simp [kind] at hkind
    | branch a s cs =>
      obtain rfl : s = .chain op := by simpa [kind] using hkind
      rw [Operator.inline_chain, flat_chain]
  · rw [Operator.inline_of_kind_ne hkind, List.map_singleton, List.intercalate_singleton]

/-- A canonical tree is inlined as one operand at least. -/
theorem IsCanonical.inline_ne_nil {t : Tree α} (h : t.IsCanonical) (op : Operator) :
    op.inline t ≠ [] := by
  intro hnil
  have hflat := intercalate_flat_inline op t
  rw [hnil] at hflat
  exact h.flat_ne_nil hflat.symm

/-- The operands a canonical tree gives to a chain are ones that the operator admits, unless the
tree is a chain of a looser operator. -/
theorem IsCanonical.of_mem_inline {t c : Tree α} (h : t.IsCanonical) {op : Operator}
    (hkind : op.admits t.kind = true ∨ t.kind = .branch (.chain op)) (hc : c ∈ op.inline t) :
    op.admits c.kind = true ∧ c.IsCanonical := by
  obtain hadmits | hchain := hkind
  · rw [Operator.inline_of_kind_ne (Operator.kind_ne_of_admits hadmits), List.mem_singleton] at hc
    subst hc
    exact ⟨hadmits, h⟩
  · cases t with
    | literal a l => simp [kind] at hchain
    | branch a s cs =>
      obtain rfl : s = .chain op := by simpa [kind] using hchain
      rw [Operator.inline_chain] at hc
      exact (isCanonical_chain_iff.mp h).2 c hc

/-- The chain of two trees under an operator, with their own operands where they are such chains. -/
def join (op : Operator) (t u : Expr) : Expr :=
  branch () (.chain op) (op.inline t ++ op.inline u)

/-- Joined trees are written with the sign between them. -/
theorem flat_join {op : Operator} {t u : Expr} (ht : t.IsCanonical) (hu : u.IsCanonical) :
    (join op t u).flat = t.flat ++ op.symbol :: u.flat := by
  rw [join, flat_chain, List.map_append, intercalate_append, intercalate_flat_inline,
    intercalate_flat_inline]
  · simpa using ht.inline_ne_nil op
  · simpa using hu.inline_ne_nil op

/-- Canonical trees are joined to a canonical tree. -/
theorem IsCanonical.join {op : Operator} {t u : Expr} (ht : t.IsCanonical) (hu : u.IsCanonical)
    (htkind : op.admits t.kind = true ∨ t.kind = .branch (.chain op))
    (hukind : op.admits u.kind = true ∨ u.kind = .branch (.chain op)) :
    (Tree.join op t u).IsCanonical := by
  refine isCanonical_chain_iff.mpr ⟨?_, fun c hc => ?_⟩
  · have htpos := List.length_pos_iff.mpr (ht.inline_ne_nil op)
    have hupos := List.length_pos_iff.mpr (hu.inline_ne_nil op)
    rw [List.length_append]
    omega
  · obtain hc | hc := List.mem_append.mp hc
    · exact ht.of_mem_inline htkind hc
    · exact hu.of_mem_inline hukind hc

end Tree

/-- A sum takes any node, or inlines it. -/
private theorem Operator.plus_admits_or_eq (k : Kind) :
    Operator.plus.admits k = true ∨ k = .branch (.chain .plus) := by
  rw [plus_admits_iff]
  exact (em (k = .branch (.chain .plus))).symm

/-- A product takes what a sum takes, or inlines it. -/
private theorem Operator.times_admits_or_eq {k : Kind} (h : Operator.plus.admits k = true) :
    Operator.times.admits k = true ∨ k = .branch (.chain .times) := by
  rcases k with _ | _ | _ | _
  · exact .inl rfl
  · exact .inl rfl
  · exact absurd h (by decide)
  · exact .inr rfl

/-- Every text of the grammar is that of a canonical tree. -/
theorem Derives.exists_isCanonical {c : Category} {w : List Char} (h : Derives c w) :
    ∃ t : Expr, t.IsCanonical ∧ t.flat = w ∧ c.Covers t.kind := by
  induction h with
  | expression_sum h ih =>
    obtain ⟨t, ht, hflat, -⟩ := ih
    exact ⟨t, ht, hflat, trivial⟩
  | expression_operand h ih =>
    obtain ⟨t, ht, hflat, -⟩ := ih
    exact ⟨t, ht, hflat, trivial⟩
  | plus hv hw ihv ihw =>
    obtain ⟨t, ht, rfl, -⟩ := ihv
    obtain ⟨u, hu, rfl, -⟩ := ihw
    refine ⟨Tree.join .plus t u, ?_, Tree.flat_join ht hu, trivial⟩
    exact ht.join hu (Operator.plus_admits_or_eq _) (Operator.plus_admits_or_eq _)
  | sum_product h ih =>
    obtain ⟨t, ht, hflat, -⟩ := ih
    exact ⟨t, ht, hflat, trivial⟩
  | times hv hw ihv ihw =>
    obtain ⟨t, ht, rfl, htkind⟩ := ihv
    obtain ⟨u, hu, rfl, hukind⟩ := ihw
    refine ⟨Tree.join .times t u, ?_, Tree.flat_join ht hu, rfl⟩
    exact ht.join hu (Operator.times_admits_or_eq htkind) (Operator.times_admits_or_eq hukind)
  | product_operand h ih =>
    obtain ⟨t, ht, hflat, hkind⟩ := ih
    exact ⟨t, ht, hflat, Operator.admits_of_times hkind .plus⟩
  | group h ih =>
    obtain ⟨t, ht, rfl, -⟩ := ih
    exact ⟨.branch () .group [t], .group () ht, Tree.flat_group () t [], rfl⟩
  | operand_literal h ih =>
    obtain ⟨t, ht, hflat, hkind⟩ := ih
    exact ⟨t, ht, hflat, by rw [hkind]; rfl⟩
  | @number w hne hdigits =>
    have htext := isLiteralText_iff_derives.mpr (.number hne hdigits)
    exact ⟨.literal () ⟨w, htext⟩, .literal () _, Tree.flat_literal () _, rfl⟩
  | @letter c hc =>
    have htext := isLiteralText_iff_derives.mpr (.letter hc)
    exact ⟨.literal () ⟨[c], htext⟩, .literal () _, Tree.flat_literal () _, rfl⟩

/-- A product is a sum and an expression. -/
theorem Derives.of_product {w : List Char} (h : Derives .product w) {c : Category}
    (hliteral : c ≠ .literal) (hoperand : c ≠ .operand) : Derives c w := by
  cases c with
  | expression => exact .expression_sum (.sum_product h)
  | sum => exact .sum_product h
  | product => exact h
  | operand => contradiction
  | literal => contradiction

/-- An operand is a product, a sum and an expression. -/
theorem Derives.of_operand {w : List Char} (h : Derives .operand w) {c : Category}
    (hliteral : c ≠ .literal) : Derives c w := by
  by_cases hoperand : c = .operand
  · exact hoperand ▸ h
  · exact (Derives.product_operand h).of_product hliteral hoperand

/-- Products with signs between them are a product. -/
theorem Derives.product_intercalate {ps : List (List Char)} (hne : ps ≠ [])
    (hps : ∀ p ∈ ps, Derives .product p) : Derives .product (['*'].intercalate ps) := by
  induction ps with
  | nil => exact absurd rfl hne
  | cons p ps ih =>
    obtain ⟨hp, hps⟩ := List.forall_mem_cons.mp hps
    cases ps with
    | nil => rwa [List.intercalate_singleton]
    | cons q qs =>
      rw [List.intercalate_cons_cons, List.append_assoc, List.singleton_append]
      exact .times hp (ih (List.cons_ne_nil q qs) hps)

/-- Sums lean to the left, so the operands are taken from the right. -/
theorem Derives.sum_intercalate {ps : List (List Char)} (hne : ps ≠ [])
    (hps : ∀ p ∈ ps, Derives .product p) : Derives .sum (['+'].intercalate ps) := by
  induction ps using List.reverseRecOn with
  | nil => exact absurd rfl hne
  | append_singleton ps p ih =>
    have hp := hps p (by simp)
    by_cases hnil : ps = []
    · rw [hnil, List.nil_append, List.intercalate_singleton]
      exact .sum_product hp
    · rw [intercalate_append hnil (List.cons_ne_nil p []), List.intercalate_singleton]
      exact .plus (ih hnil fun q hq => hps q (List.mem_append_left [p] hq)) hp

/-- A canonical tree is written in the grammar. -/
theorem Tree.IsCanonical.derives {t : Expr} (h : t.IsCanonical) {c : Category}
    (hcovers : c.Covers t.kind) : Derives c t.flat := by
  induction h generalizing c with
  | literal a l =>
    rw [flat_literal]
    have hliteral := isLiteralText_iff_derives.mp l.isLiteralText_text
    by_cases hc : c = .literal
    · exact hc ▸ hliteral
    · exact (Derives.operand_literal hliteral).of_operand hc
  | group a hc ih =>
    rw [flat_group]
    refine (Derives.group (ih (c := .expression) trivial)).of_operand ?_
    rintro rfl
    exact absurd hcovers (by simp [Category.Covers, kind])
  | @chain a op cs hlength hkind hcs ih =>
    have hne : cs.map flat ≠ [] := by
      rw [ne_eq, List.map_eq_nil_iff]
      rintro rfl
      simp at hlength
    -- A sum admits products and a product admits operands, which are products, too.
    have hproducts : ∀ p ∈ cs.map flat, Derives .product p := by
      refine List.forall_mem_map.mpr fun d hd => ih d hd ?_
      cases op with
      | plus => exact hkind d hd
      | times => exact Operator.admits_of_times (hkind d hd) .plus
    rw [flat_chain]
    cases op with
    | plus =>
      have hsum := Derives.sum_intercalate hne hproducts
      cases c with
      | expression => exact .expression_sum hsum
      | sum => exact hsum
      | product => exact absurd hcovers (by simp [Category.Covers, kind, Operator.admits])
      | operand => exact absurd hcovers (by simp [Category.Covers, kind, Operator.admits])
      | literal => exact absurd hcovers (by simp [Category.Covers, kind])
    | times =>
      refine (Derives.product_intercalate hne hproducts).of_product ?_ ?_
      · rintro rfl
        exact absurd hcovers (by simp [Category.Covers, kind])
      · rintro rfl
        exact absurd hcovers (by simp [Category.Covers, kind, Operator.admits])

/-- The grammar derives the texts of canonical trees and no others. -/
theorem derives_expression_iff {w : List Char} :
    Derives .expression w ↔ ∃ t : Expr, t.IsCanonical ∧ t.flat = w := by
  constructor
  · intro h
    obtain ⟨t, ht, hflat, -⟩ := h.exists_isCanonical
    exact ⟨t, ht, hflat⟩
  · rintro ⟨t, ht, rfl⟩
    exact ht.derives (c := .expression) trivial

/-- The texts that are parsed are those of the grammar. -/
theorem exists_parse_iff_derives {text : List Char} :
    (∃ t, parse text = .ok t) ↔ Derives .expression (Text.squeeze text) := by
  rw [derives_expression_iff]
  exact exists_congr fun t => parse_eq_ok_iff

/-- Reading accepts a text if the grammar derives it without its blanks, and reports one of the four
defects otherwise; there is no third outcome. Although only the numbers of parentheses are compared
up front, no text is accepted in which some prefix closes more parentheses than it opens. -/
theorem parse_accepts_iff_derives (text : List Char) :
    ((Derives .expression (Text.squeeze text) ∧ ∃ t, parse text = .ok t) ∨
      (¬ Derives .expression (Text.squeeze text) ∧ ∃ e, parse text = .error e ∧
        e.name ∈ ["UNBALANCED_PARENTHESES", "EMPTY_GROUP", "EMPTY_FRAGMENT", "INVALID_LITERAL"])) ∧
    ¬ ∃ t p, parse text = .ok t ∧ p <+: Text.squeeze text ∧ p.count '(' < p.count ')' := by
  constructor
  · cases h : parse text with
    | ok t => exact .inl ⟨exists_parse_iff_derives.mp ⟨t, h⟩, t, rfl⟩
    | error e =>
      refine .inr ⟨fun hderives => ?_, e, rfl, by cases e <;> simp [ParseError.name]⟩
      obtain ⟨t, ht⟩ := exists_parse_iff_derives.mpr hderives
      rw [h] at ht
      contradiction
  · rintro ⟨t, p, h, hstart, hcount⟩
    obtain ⟨hcanonical, hflat⟩ := parse_eq_ok_iff.mp h
    have hdepth := hcanonical.isNested_flat.depth_nonneg p (hflat ▸ hstart)
    rw [Scan.depth_eq_count_sub] at hdepth
    omega

end Rearrange
