import Rearrange.Proofs.Tree.Basic
import Rearrange.Text.Blank

namespace Rearrange

theorem isDigit_iff {c : Char} : c.isDigit = true ↔ '0' ≤ c ∧ c ≤ '9' := by
  simp [Char.isDigit, Char.le_def]

theorem isLower_iff {c : Char} : c.isLower = true ↔ 'a' ≤ c ∧ c ≤ 'z' := by
  change (decide ('a'.val ≤ c.val) && decide (c.val ≤ 'z'.val)) = true ↔ _
  rw [Bool.and_eq_true, decide_eq_true_iff, decide_eq_true_iff, Char.le_def, Char.le_def]

/-- A character that the flat text of a tree may hold. -/
def isExpressionChar (c : Char) : Bool :=
  c.isDigit || c.isLower || c == '+' || c == '*' || c == '(' || c == ')'

/-- No character of an expression is blank. -/
theorem isBlank_of_isExpressionChar {c : Char} (h : isExpressionChar c = true) :
    Text.isBlank c = false := by
  have hrange : 40 ≤ c.toNat ∧ c.toNat ≤ 122 := by
    simp only [isExpressionChar, Bool.or_eq_true, beq_iff_eq] at h
    rcases h with ((((h | h) | rfl) | rfl) | rfl) | rfl
    · have hdigit := isDigit_iff.mp h
      simp [Char.le_def, UInt32.le_iff_toNat_le] at hdigit
      omega
    · have hlower := isLower_iff.mp h
      simp [Char.le_def, UInt32.le_iff_toNat_le] at hlower
      omega
    · decide
    · decide
    · decide
    · decide
  simp [Text.isBlank]
  omega

/-- A text of such characters has no blanks to be dropped. -/
theorem Text.squeeze_eq_self {text : List Char} (h : ∀ c ∈ text, isExpressionChar c = true) :
    Text.squeeze text = text := by
  rw [Text.squeeze, List.filter_eq_self]
  intro c hc
  rw [isBlank_of_isExpressionChar (h c hc)]
  rfl

namespace Literal

/-- A literal keeps the text that it is read from. -/
theorem text_of_ofText?_eq_some {text : List Char} {l : Literal} (h : ofText? text = some l) :
    l.text = text := by
  rw [ofText?] at h
  split at h
  · rw [← Option.some.inj h]
  · contradiction

/-- No literal is empty. -/
theorem text_ne_nil (l : Literal) : l.text ≠ [] := by
  intro h
  have := l.isLiteralText_text
  rw [h] at this
  contradiction

/-- Literals consist of digits and small letters. -/
theorem isDigit_or_isLower_of_mem (l : Literal) {c : Char} (hc : c ∈ l.text) :
    c.isDigit = true ∨ c.isLower = true := by
  have htext := l.isLiteralText_text
  rw [isLiteralText.eq_def] at htext
  split at htext
  · contradiction
  · next d heq =>
    rw [heq, List.mem_singleton] at hc
    simpa [hc] using htext
  · exact .inl (List.all_eq_true.mp htext c hc)

/-- The characters of a literal are characters of an expression. -/
theorem isExpressionChar_of_mem (l : Literal) {c : Char} (hc : c ∈ l.text) :
    isExpressionChar c = true := by
  rcases l.isDigit_or_isLower_of_mem hc with h | h <;> simp [isExpressionChar, h]

end Literal

/-- Signs are characters of an expression. -/
theorem Operator.isExpressionChar_symbol (op : Operator) : isExpressionChar op.symbol = true := by
  cases op <;> decide

/-- A character of a joined text is the separator or stands in a part. -/
private theorem mem_intercalate_singleton {x c : Char} {ps : List (List Char)}
    (h : c ∈ [x].intercalate ps) : c = x ∨ ∃ p ∈ ps, c ∈ p := by
  induction ps with
  | nil => simp at h
  | cons p ps ih =>
    cases ps with
    | nil => exact .inr ⟨p, by simp, by simpa using h⟩
    | cons q qs =>
      rw [List.intercalate_cons_cons, List.append_assoc, List.singleton_append, List.mem_append,
        List.mem_cons] at h
      rcases h with h | rfl | h
      · exact .inr ⟨p, by simp, h⟩
      · exact .inl rfl
      · exact (ih h).imp_right fun ⟨r, hr, hcr⟩ => ⟨r, List.mem_cons_of_mem p hr, hcr⟩

/-- Whatever the shape of a tree, its flat text holds nothing but digits, small letters and the four
signs. -/
theorem Tree.isExpressionChar_of_mem_flat {α : Type} {t : Tree α} {c : Char} (hc : c ∈ t.flat) :
    isExpressionChar c = true := by
  induction t generalizing c with
  | literal a l => exact l.isExpressionChar_of_mem (by simpa using hc)
  | branch a s cs ih =>
    cases s with
    | group =>
      have hbody : ∀ d ∈ (flatAll cs).headD [], isExpressionChar d = true := by
        cases cs with
        | nil => exact nofun
        | cons d ds => exact fun e he => ih d List.mem_cons_self he
      rw [flat, List.mem_append, List.mem_cons, List.mem_singleton] at hc
      rcases hc with (rfl | hc) | rfl
      · decide
      · exact hbody c hc
      · decide
    | chain op =>
      rw [flat_chain] at hc
      obtain rfl | ⟨p, hp, hcp⟩ := mem_intercalate_singleton hc
      · exact op.isExpressionChar_symbol
      · obtain ⟨d, hd, rfl⟩ := List.mem_map.mp hp
        exact ih d hd hcp

/-- A flat text has no blanks. -/
theorem Tree.squeeze_flat {α : Type} (t : Tree α) : Text.squeeze t.flat = t.flat :=
  Text.squeeze_eq_self fun _ => isExpressionChar_of_mem_flat

end Rearrange
