import Rearrange.Proofs.Parse.Grammar

namespace Rearrange

variable {α : Type}

namespace Tree

mutual
/-- The literals of a tree from left to right. -/
def literals : Tree α → List Literal
  | literal _ l => [l]
  | branch _ _ cs => literalsAll cs

/-- The literals of several trees, one tree after the other. -/
def literalsAll : List (Tree α) → List Literal
  | [] => []
  | c :: cs => c.literals ++ literalsAll cs
end

end Tree

/-- The tree that a text is read as says exactly the text without its blanks. It is canonical, all
its literals are numbers or single letters, and there is nothing left to flatten. -/
theorem parse_ok_spec {text : List Char} {t : Expr} (h : parse text = .ok t) :
    t.flat = Text.squeeze text ∧ t.IsCanonical ∧ (∀ l ∈ t.literals, Derives .literal l.text) ∧
      t.isFlat = true ∧ t.flatten = t := by
  obtain ⟨hcanonical, hflat⟩ := parse_eq_ok_iff.mp h
  refine ⟨hflat, hcanonical, fun l _ => ?_, hcanonical.isFlat,
    Tree.flatten_eq_self hcanonical.isFlat⟩
  exact isLiteralText_iff_derives.mp l.isLiteralText_text

/-- A sum with a product and a group in it, read from a text with blanks. -/
theorem parse_ok_spec_sum_of_product_and_group :
    let t : Expr := .branch () (.chain .plus) [
      .branch () (.chain .times) [.literal () ⟨['1', '2'], rfl⟩, .literal () ⟨['x'], rfl⟩],
      .branch () .group [.literal () ⟨['y'], rfl⟩]]
    parse " 1 2*x\t+ ( y)".toList = .ok t ∧
      t.flat = Text.squeeze " 1 2*x\t+ ( y)".toList ∧ t.IsCanonical ∧
      (∀ l ∈ t.literals, Derives .literal l.text) ∧ t.isFlat = true ∧ t.flatten = t := by
  intro t
  have hcanonical : t.IsCanonical := by
    refine .chain () (by simp) (by simp [Tree.kind, Operator.admits]) ?_
    simp only [List.mem_cons, List.not_mem_nil, or_false, forall_eq_or_imp, forall_eq]
    refine ⟨.chain () (by simp) (by simp [Tree.kind, Operator.admits]) ?_, .group () (.literal ..)⟩
    simp [Tree.IsCanonical.literal]
  have h : parse " 1 2*x\t+ ( y)".toList = .ok t :=
    parse_eq_ok_iff.mpr ⟨hcanonical, by decide⟩
  exact ⟨h, parse_ok_spec h⟩

/-- Reading the text of a tree gives the tree back exactly if it is canonical. Trees of every other
shape, such as chains of one operand, groups of none or several, or chains directly below chains of
the same operator, have texts that are read as another tree or not at all. -/
theorem parse_flat_eq_ok_iff (t : Tree α) : parse t.flat = .ok t.erase ↔ t.IsCanonical := by
  refine ⟨fun h => ?_, parse_flat⟩
  exact Tree.isCanonical_erase_iff.mp (parse_eq_ok_iff.mp h).1

end Rearrange
