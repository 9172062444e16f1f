import Rearrange.CommandLine.Scanner
import Rearrange.Proofs.CommandLine.FrontEnd

namespace Rearrange.CommandLine

section Checks

variable {α ε : Type}

/-- If there is one way only in which a check of elements can fail, it fails in this way or not at
all. -/
private theorem forM_eq_ok_or_error {f : α → Except ε Unit} {l : List α} {e : ε}
    (h : ∀ a ∈ l, f a = .ok () ∨ f a = .error e) : l.forM f = .ok () ∨ l.forM f = .error e := by
  induction l with
  | nil => exact .inl rfl
  | cons a l ih =>
    obtain ⟨ha, hl⟩ := List.forall_mem_cons.mp h
    rw [List.forM_eq_forM, List.forM_cons]
    obtain ha | ha := ha
    · rw [ha]
      exact ih hl
    · rw [ha]
      exact .inr rfl

/-- A check that no element fails does not fail. -/
private theorem forM_eq_ok {f : α → Except ε Unit} {l : List α} (h : ∀ a ∈ l, f a = .ok ()) :
    l.forM f = .ok () := by
  induction l with
  | nil => rfl
  | cons a l ih =>
    obtain ⟨ha, hl⟩ := List.forall_mem_cons.mp h
    rw [List.forM_eq_forM, List.forM_cons, ha]
    exact ih hl

end Checks

variable {s : Scanned} {read : List Char → Except UsageError (List Int)} {args : List (List Char)}
  {text focus given : List Char} {position : Int}

/-- The options of a move can be wrong in one way only, which is a focus that is refused. -/
theorem checkGiven_eq (hfocus : s.value? .focus = some focus)
    (hgiven : s.value? .position = some given) (hposition : Text.integer? given = some position) :
    s.checkGiven read = .ok () ∨
      ∃ e, read focus = .error e ∧ s.checkGiven read = .error e := by
  have hother : ∀ o, o ≠ .focus → s.checkOption read o = .ok () := by
    intro o ho
    cases o with
    | focus => exact absurd rfl ho
    | position => simp [Scanned.checkOption, hgiven, readPosition, hposition, Except.map]
    | _ => rfl
  have hcheck : s.checkOption read .focus = (read focus).map fun _ => () := by
    simp [Scanned.checkOption, hfocus]
  cases hpath : read focus with
  | ok path =>
    refine .inl (forM_eq_ok fun o _ => ?_)
    by_cases ho : o = .focus
    · rw [ho, hcheck, hpath]
      rfl
    · exact hother o ho
  | error e =>
    refine (forM_eq_ok_or_error fun o _ => ?_).imp_right fun hchecked => ⟨e, rfl, hchecked⟩
    by_cases ho : o = .focus
    · rw [ho, hcheck, hpath]
      exact .inr rfl
    · exact .inl (hother o ho)

/-- Arguments that hold a text, a focus and a numeral with the value of a position, and do not ask
for help, are found to be a move by the scanner. -/
theorem delivers_scanner (hscan : scan CommandName.move.options true args = .ok s)
    (hhelp : s.asksForHelp = false) (hrest : s.rest = [text])
    (hfocus : s.value? .focus = some focus) (hgiven : s.value? .position = some given)
    (hposition : Text.integer? given = some position) (files : Files) :
    FrontEnd.scanner.Delivers files args text focus position := by
  intro read
  have hrequest : s.request read files .move =
      ((read focus).map fun path => .move text path position).mapError .usage := by
    cases hpath : read focus <;>
      simp [Scanned.request, Scanned.argument, hrest, Scanned.required, hfocus, hgiven,
        readPosition, hposition, hpath, bind, Except.bind, Except.mapError, Except.map, pure,
        Except.pure]
  have hleft : s.checkRest = .ok () := by
    rw [Scanned.checkRest, hrest]
    rfl
  change Request.ofArguments read files .move args = _
  rw [Request.ofArguments, hscan]
  simp only [Except.mapError, bind, Except.bind, hhelp, hrequest, hleft]
  obtain hchecked | ⟨e, hpath, hchecked⟩ := checkGiven_eq hfocus hgiven hposition
  · rw [hchecked]
    cases read focus <;> rfl
  · rw [hchecked, hpath]
    rfl

end Rearrange.CommandLine
