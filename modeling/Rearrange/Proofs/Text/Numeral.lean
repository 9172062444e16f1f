import Rearrange.Proofs.Text.Blank
import Rearrange.Text.Numeral

namespace Rearrange.Text

variable {text : List Char} {value n : Nat} {c : Char}

/-- A character that can stand in a numeral. -/
def InNumeral (c : Char) : Prop :=
  (digit? c).isSome = true ∨ c = '_' ∨ c = '-' ∨ c = '+' ∨ isNumeralSpace c = true

/-- Where digits are read on, there are only digits and underscores. -/
private theorem inNumeral_of_digitsFrom? (h : digitsFrom? value text = some n) (hc : c ∈ text) :
    InNumeral c := by
  fun_induction digitsFrom? value text with
  | case1 value => cases hc
  | case2 value first rest d hfirst ih =>
    obtain rfl | hc := List.mem_cons.mp hc
    · exact .inl (by rw [hfirst]; rfl)
    · exact ih h hc
  | case3 => cases h
  | case4 value second rest d hsecond hfirst ih =>
    rw [List.mem_cons, List.mem_cons] at hc
    obtain rfl | rfl | hc := hc
    · exact .inr (.inl rfl)
    · exact .inl (by rw [hsecond]; rfl)
    · exact ih h hc
  | case5 => cases h
  | case6 => cases h

private theorem inNumeral_of_natural? (h : natural? text = some n) (hc : c ∈ text) :
    InNumeral c := by
  cases text with
  | nil => cases hc
  | cons first rest =>
    rw [natural?] at h
    cases hfirst : digit? first with
    | none =>
      rw [hfirst] at h
      cases h
    | some d =>
      rw [hfirst] at h
      obtain rfl | hc := List.mem_cons.mp hc
      · exact .inl (by rw [hfirst]; rfl)
      · exact inNumeral_of_digitsFrom? h hc

/-- Between its white space an integer is a sign or nothing and then a numeral without a sign. -/
private theorem exists_natural?_of_integer? {n : Int} (h : integer? text = some n) :
    ∃ sign digits m, trim isNumeralSpace text = sign ++ digits ∧ natural? digits = some m ∧
      ∀ c ∈ sign, c = '-' ∨ c = '+' := by
  rw [integer?] at h
  split at h
  · next digits htrim =>
    obtain ⟨signed, hm, -⟩ := Option.map_eq_some_iff.mp h
    obtain ⟨m, hm, -⟩ := Option.bind_eq_some_iff.mp hm
    exact ⟨['-'], digits, m, htrim, hm, by simp⟩
  · next digits htrim =>
    obtain ⟨m, hm, -⟩ := Option.map_eq_some_iff.mp h
    exact ⟨['+'], digits, m, htrim, hm, by simp⟩
  · obtain ⟨m, hm, -⟩ := Option.map_eq_some_iff.mp h
    exact ⟨[], _, m, rfl, hm, nofun⟩

/-- A number is written in digits, underscores, a sign and blanks. -/
theorem inNumeral_of_integer? {n : Int} (h : integer? text = some n) (hc : c ∈ text) :
    InNumeral c := by
  by_cases hspace : isNumeralSpace c = true
  · exact .inr (.inr (.inr (.inr hspace)))
  · obtain ⟨sign, digits, m, htrim, hm, hsign⟩ := exists_natural?_of_integer? h
    have hmem := mem_trim_of_mem hc (Bool.not_eq_true _ ▸ hspace)
    rw [htrim] at hmem
    obtain hmem | hmem := List.mem_append.mp hmem
    · obtain rfl | rfl := hsign c hmem
      · exact .inr (.inr (.inl rfl))
      · exact .inr (.inr (.inr (.inl rfl)))
    · exact inNumeral_of_natural? hm hmem

/-- A number has no point. -/
theorem point_notMem_of_integer? {n : Int} (h : integer? text = some n) : '.' ∉ text := by
  intro hc
  have hpoint := inNumeral_of_integer? h hc
  rw [InNumeral] at hpoint
  revert hpoint
  decide +kernel

end Rearrange.Text
