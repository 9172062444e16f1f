import Mathlib.Data.List.TakeWhile
import Rearrange.Text.Blank

namespace Rearrange.Text

variable {p : Char → Bool} {text : List Char}

private theorem filter_dropWhile (p : Char → Bool) (text : List Char) :
    (text.dropWhile p).filter (!p ·) = text.filter (!p ·) := by
  induction text with
  | nil => rfl
  | cons c rest ih =>
    by_cases hc : p c = true
    · rw [List.dropWhile_cons_of_pos hc, ih, List.filter_cons_of_neg (by simpa using hc)]
    · rw [List.dropWhile_cons_of_neg hc]

private theorem filter_trim (p : Char → Bool) (text : List Char) :
    (trim p text).filter (!p ·) = text.filter (!p ·) := by
  rw [trim, List.filter_reverse, filter_dropWhile, List.filter_reverse, List.reverse_reverse,
    filter_dropWhile]

/-- Trimming takes away no character that is not trimmed. -/
theorem mem_trim_of_mem {c : Char} (hc : c ∈ text) (hp : p c = false) : c ∈ trim p text := by
  have hkept : c ∈ text.filter (!p ·) := List.mem_filter.mpr ⟨hc, by simpa using hp⟩
  rw [← filter_trim] at hkept
  exact (List.mem_filter.mp hkept).1

/-- Nothing is left when every character is trimmed. -/
theorem trim_eq_nil_iff : trim p text = [] ↔ ∀ c ∈ text, p c = true := by
  constructor
  · intro h c hc
    by_contra hp
    have hkept := mem_trim_of_mem hc (Bool.not_eq_true _ ▸ hp)
    rw [h] at hkept
    cases hkept
  · intro h
    rw [trim, List.dropWhile_eq_nil_iff.mpr h]
    rfl

/-- Nothing is left of a blank text and of no other. -/
theorem strip_eq_nil_iff : strip text = [] ↔ ∀ c ∈ text, isBlank c = true :=
  trim_eq_nil_iff

end Rearrange.Text
