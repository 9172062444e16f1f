import Mathlib.Data.List.Forall2
import Rearrange.Check
import Rearrange.Proofs.Parse.Grammar
import Rearrange.Proofs.Text.Blank

namespace Rearrange.Check

variable {lines : List (List Char)} {n : Nat} {line : List Char}

/-- The line with a number, counted from one, is to be checked: without the blanks at its ends it
is not empty and does not start with a number sign. -/
def Lists (lines : List (List Char)) (n : Nat) (line : List Char) : Prop :=
  1 ≤ n ∧ lines[n - 1]? = some line ∧ Text.strip line ≠ [] ∧ (Text.strip line).head? ≠ some '#'

/-- Printing what was read and reading it again never finds a difference. -/
theorem verdict_eq (text : List Char) :
    verdict text = match parse text with
      | .ok t => .ok t.flat
      | .error e => .rejected e := by
  rw [verdict]
  cases h : parse text with
  | error e => rfl
  | ok t =>
    have hagain := parse_flat (parse_eq_ok_iff.mp h).1
    rw [Tree.erase_eq] at hagain
    simp [hagain]

/-- A row passes if and only if its result says so. -/
theorem Row.passes_eq (r : Row) : r.passes = decide (r.result.status = "OK".toList) := by
  obtain ⟨n, input, verdict⟩ := r
  cases verdict with
  | ok flat => rfl
  | mismatch flat => rfl
  | rejected e => cases e <;> simp [passes, result, ParseError.name]

end Rearrange.Check
