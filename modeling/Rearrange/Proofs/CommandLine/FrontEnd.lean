import Mathlib.Data.List.Forall2
import Rearrange.CommandLine.FrontEnd
import Rearrange.Proofs.Text.Numeral

namespace Rearrange.CommandLine

/-- A list is read when each of its elements is. -/
private theorem mapM_eq_some_iff_forall₂ {α β : Type} {f : α → Option β} {l : List α} {m : List β} :
    l.mapM f = some m ↔ List.Forall₂ (fun a b => f a = some b) l m := by
  induction l generalizing m with
  | nil => simp [eq_comm]
  | cons a l ih =>
    simp only [List.mapM_cons, List.forall₂_cons_left_iff, ← ih]
    cases f a <;> cases l.mapM f <;> simp [eq_comm]

/-- A path is written as a focus. -/
inductive Names : List Char → List Int → Prop where
  /-- Blanks alone lead to the root. -/
  | root {given : List Char} (h : ∀ c ∈ given, Text.isBlank c = true) : Names given []
  /-- Child indices stand between blanks, with points to separate them. -/
  | indices {given : List Char} {parts : List (List Char)} {path : List Int} (hne : parts ≠ [])
      (hstrip : Text.strip given = ['.'].intercalate parts)
      (hread : List.Forall₂ (fun part n => Text.integer? part = some n) parts path) :
      Names given path

/-- Numbers with points between them are taken apart at the points. -/
private theorem splitOn_intercalate_of_forall₂ {parts : List (List Char)} {path : List Int}
    (hne : parts ≠ []) (h : List.Forall₂ (fun part n => Text.integer? part = some n) parts path) :
    (['.'].intercalate parts).splitOn '.' = parts := by
  refine List.splitOn_intercalate '.' (fun part hpart => ?_) hne
  obtain ⟨i, hi, rfl⟩ := List.mem_iff_getElem.mp hpart
  exact Text.point_notMem_of_integer? (List.forall₂_iff_get.mp h |>.2 i hi (h.length_eq ▸ hi))

/-- A list of numerals with points between them is not empty. -/
private theorem intercalate_ne_nil_of_forall₂ {parts : List (List Char)} {path : List Int}
    (hne : parts ≠ []) (h : List.Forall₂ (fun part n => Text.integer? part = some n) parts path) :
    ['.'].intercalate parts ≠ [] := by
  intro hnil
  have hparts := splitOn_intercalate_of_forall₂ hne h
  rw [hnil, List.splitOn_nil] at hparts
  rw [← hparts] at h
  cases h with
  | cons hempty _ => cases hempty

/-- A focus is read when it names a path. -/
theorem focusPath?_strip_eq_some_iff {given : List Char} {path : List Int} :
    focusPath? (Text.strip given) = some path ↔ Names given path := by
  rw [focusPath?]
  constructor
  · intro h
    split at h
    · next hnil =>
      obtain rfl := Option.some.inj h
      exact .root (Text.strip_eq_nil_iff.mp hnil)
    · exact .indices (List.splitOn_ne_nil '.' _) (List.intercalate_splitOn '.').symm
        (mapM_eq_some_iff_forall₂.mp h)
  · intro h
    cases h with
    | root hblank => rw [if_pos (Text.strip_eq_nil_iff.mpr hblank)]
    | indices hne hstrip hread =>
      rw [hstrip, if_neg (intercalate_ne_nil_of_forall₂ hne hread),
        splitOn_intercalate_of_forall₂ hne hread]
      exact mapM_eq_some_iff_forall₂.mpr hread

namespace FrontEnd

variable {ε : Type} {front : FrontEnd ε} {given : List Char} {path : List Int}

/-- A focus is read as the path that is written there. -/
theorem readFocus_eq_ok_iff : front.readFocus given = .ok path ↔ Names given path := by
  rw [← focusPath?_strip_eq_some_iff, readFocus]
  cases focusPath? (Text.strip given) <;> simp

/-- A focus that is not written as a path is a bad parameter. -/
theorem exists_readFocus_eq_error (h : ∀ path, ¬ Names given path) :
    ∃ reason, front.readFocus given = .error (front.badParameter reason) := by
  rw [readFocus]
  cases hpath : focusPath? (Text.strip given) with
  | none => exact ⟨_, rfl⟩
  | some path => exact absurd (focusPath?_strip_eq_some_iff.mp hpath) (h path)

/-- A front end finds a move of a text by a focus and a position in the arguments of a command. It
leaves the focus to what reads it, and fails only if the reading fails, in the same way. -/
def Delivers (front : FrontEnd ε) (files : Files) (args : List (List Char))
    (text focus : List Char) (position : Int) : Prop :=
  ∀ read, front.request read files .move args =
    ((read focus).map fun path => .move text path position).mapError .usage

end FrontEnd

end Rearrange.CommandLine
