import Rearrange.Proofs.Markup
import Rearrange.Text.Quoted

namespace Rearrange.Text

open Markup (IsPaired isPaired_backslash isPaired_open isPaired_of_ne isPaired_append_of_notMem)

variable {mark c : Char} {k : Nat} {rest : List Char}

/-- A quotation mark is neither a backslash nor a bracket. -/
theorem quotationMark_ne (text : List Char) :
    quotationMark text ≠ '\\' ∧ quotationMark text ≠ '[' := by
  rw [quotationMark]
  split
  · exact ⟨by decide, by decide⟩
  · exact ⟨by decide, by decide⟩

/-- A code is written in hexadecimal digits. -/
private theorem exists_hexDigit_of_mem {width n : Nat} (h : c ∈ hexDigits width n) :
    ∃ d < 16, c = hexDigit d := by
  induction width generalizing n with
  | zero => cases h
  | succ width ih =>
    rw [hexDigits, List.mem_append, List.mem_singleton] at h
    obtain h | rfl := h
    · exact ih h
    · exact ⟨n % 16, Nat.mod_lt n (by decide), rfl⟩

/-- What is no hexadecimal digit is not in a code. -/
theorem notMem_hexDigits (h : ∀ d < 16, c ≠ hexDigit d) (width n : Nat) :
    c ∉ hexDigits width n := fun hmem =>
  have ⟨d, hd, heq⟩ := exists_hexDigit_of_mem hmem
  h d hd heq

/-- The code of a character may stand before a paired text. -/
private theorem isPaired_codeEscape (h : IsPaired 0 rest) (k : Nat) (c : Char) :
    IsPaired k (codeEscape c ++ rest) := by
  have hdigits : ∀ width, IsPaired 0 (hexDigits width c.toNat ++ rest) := fun width =>
    isPaired_append_of_notMem (notMem_hexDigits (by decide) width _)
      (notMem_hexDigits (by decide) width _) h
  rw [codeEscape]
  split
  · rw [List.cons_append, isPaired_backslash]
    exact (isPaired_of_ne (by decide) (by decide) _ _).mpr (hdigits 2)
  split
  · rw [List.cons_append, isPaired_backslash]
    exact (isPaired_of_ne (by decide) (by decide) _ _).mpr (hdigits 4)
  · rw [List.cons_append, isPaired_backslash]
    exact (isPaired_of_ne (by decide) (by decide) _ _).mpr (hdigits 8)

/-- A quoted character may stand before a paired text. -/
private theorem isPaired_quotedChar (hmark : mark ≠ '\\' ∧ mark ≠ '[') (hk : k % 2 = 0)
    (h : ∀ n, n % 2 = 0 → IsPaired n rest) (c : Char) :
    IsPaired k (quotedChar mark c ++ rest) := by
  have hplain : ∀ n d, d ≠ '\\' → d ≠ '[' → IsPaired n (d :: rest) := fun n d hescape hopen =>
    (isPaired_of_ne hescape hopen n rest).mpr (h 0 rfl)
  rw [quotedChar]
  split
  · next hc =>
    rw [List.cons_append, isPaired_backslash]
    obtain rfl | rfl := hc
    · exact hplain _ _ hmark.1 hmark.2
    · exact (isPaired_backslash _ _).mpr (h (k + 1 + 1) (by omega))
  · next hc =>
    rw [not_or] at hc
    split
    · exact (isPaired_backslash _ _).mpr (hplain _ _ (by decide) (by decide))
    split
    · exact (isPaired_backslash _ _).mpr (hplain _ _ (by decide) (by decide))
    split
    · exact (isPaired_backslash _ _).mpr (hplain _ _ (by decide) (by decide))
    split
    · by_cases hopen : c = '['
      · subst hopen
        exact (isPaired_open k rest).mpr ⟨hk, h 0 rfl⟩
      · exact hplain k c hc.2 hopen
    · exact isPaired_codeEscape (h 0 rfl) k c

/-- In quoted text every opening bracket comes after an even number of backslashes. -/
theorem isPaired_quoted (text : List Char) : IsPaired 0 (quoted text) := by
  obtain ⟨hescape, hopen⟩ := quotationMark_ne text
  have hbody : ∀ (chars : List Char) (n : Nat), n % 2 = 0 →
      IsPaired n (chars.flatMap (quotedChar (quotationMark text)) ++ [quotationMark text]) := by
    intro chars
    induction chars with
    | nil => exact fun n _ => (isPaired_of_ne hescape hopen n []).mpr trivial
    | cons c chars ih =>
      intro n hn
      rw [List.flatMap_cons, List.append_assoc]
      exact isPaired_quotedChar ⟨hescape, hopen⟩ hn ih c
  rw [quoted, List.cons_append]
  exact (isPaired_of_ne hescape hopen 0 _).mpr (hbody text 0 rfl)

/-- Quoted text ends with the quotation mark. -/
theorem exists_quoted_eq (text : List Char) :
    ∃ body, quoted text = body ++ [quotationMark text] :=
  ⟨quotationMark text :: text.flatMap (quotedChar (quotationMark text)), rfl⟩

end Rearrange.Text
