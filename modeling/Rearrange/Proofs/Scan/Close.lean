import Rearrange.Parse.Outline
import Rearrange.Proofs.Scan.Depth

namespace Rearrange.Scan

/-- The running count stops at the first closing parenthesis that brings it to zero. What comes
before keeps the count positive. -/
theorem firstZero_eq_some_iff {d : Int} (hd : 0 < d) {text : List Char} {i : Nat} :
    firstZero d text = some i ↔ ∃ a b, text = a ++ ')' :: b ∧ a.length = i ∧
      d + depth a = 1 ∧ ∀ p, p <+: a → 0 < d + depth p := by
  induction text generalizing d i with
  | nil => simp [firstZero]
  | cons c rest ih =>
    have hweight := neg_one_le_weight c
    rw [firstZero]
    by_cases hzero : d + weight c = 0
    · have hc : c = ')' := weight_eq_neg_one_iff.mp (by omega)
      have hone : d = 1 := by omega
      subst hc hone
      rw [if_pos hzero, Option.some.injEq]
      constructor
      · rintro rfl
        exact ⟨[], rest, rfl, rfl, rfl, by simp [depth]⟩
      · rintro ⟨a, b, htext, rfl, -, hpos⟩
        cases a with
        | nil => rfl
        | cons c' a =>
          obtain ⟨rfl, -⟩ := List.cons.inj htext
          have := hpos [')'] (by simp)
          simp [depth, weight] at this
    · rw [if_neg hzero]
      constructor
      · intro h
        obtain ⟨j, hj, rfl⟩ := Option.map_eq_some_iff.mp h
        obtain ⟨a, b, rfl, rfl, hsum, hpos⟩ := (ih (by omega)).mp hj
        refine ⟨c :: a, b, rfl, rfl, by rw [depth]; omega, fun p hp => ?_⟩
        obtain rfl | ⟨q, rfl, hq⟩ := List.prefix_cons_iff.mp hp
        · simpa [depth] using hd
        · have := hpos q hq
          rw [depth]
          omega
      · rintro ⟨a, b, htext, rfl, hsum, hpos⟩
        cases a with
        | nil =>
          obtain ⟨rfl, -⟩ := List.cons.inj htext
          rw [depth] at hsum
          exact absurd (show d + weight ')' = 0 by rw [weight_eq_neg_one_iff.mpr rfl]; omega) hzero
        | cons c' a =>
          obtain ⟨rfl, rfl⟩ := List.cons.inj htext
          have hstart := hpos [c] (by simp)
          simp only [depth] at hsum hstart
          refine Option.map_eq_some_iff.mpr
            ⟨a.length, (ih (by omega)).mpr ⟨a, b, rfl, rfl, by omega, fun p hp => ?_⟩, rfl⟩
          have := hpos (c :: p) (List.cons_prefix_cons.mpr ⟨rfl, hp⟩)
          rw [depth] at this
          omega

/-- The match of a parenthesis at the start is the one behind the nested text that follows it. -/
theorem matchingClose_cons_eq_some_iff {c : Char} {rest : List Char} {close : Nat} :
    matchingClose (c :: rest) = some close ↔
      ∃ inner after, rest = inner ++ ')' :: after ∧ IsNested inner ∧ inner.length + 1 = close := by
  rw [matchingClose, List.tail_cons, Option.map_eq_some_iff]
  simp only [firstZero_eq_some_iff Int.one_pos]
  constructor
  · rintro ⟨_, ⟨inner, after, hrest, rfl, hsum, hpos⟩, rfl⟩
    refine ⟨inner, after, hrest, ⟨by omega, fun p hp => ?_⟩, rfl⟩
    have := hpos p hp
    omega
  · rintro ⟨inner, after, hrest, hnested, rfl⟩
    refine ⟨_, ⟨inner, after, hrest, rfl, by rw [hnested.depth_eq]; rfl, fun p hp => ?_⟩, rfl⟩
    have := hnested.depth_nonneg p hp
    omega

/-- A text is taken for a group when a nested text fills the place between its ends. -/
theorem lead_eq_enclosing_iff {text inner : List Char} :
    lead text = .enclosing inner ↔
      text = '(' :: inner ++ [')'] ∧ IsNested inner ∧ inner ≠ [] := by
  constructor
  · intro h
    cases text with
    | nil => simp [lead] at h
    | cons c rest =>
      simp only [lead, List.head?_cons, Option.some.injEq] at h
      split at h
      · next hopen =>
        subst hopen
        split at h
        · contradiction
        · next close hone hclose =>
          obtain ⟨body, after, rfl, hnested, rfl⟩ := matchingClose_cons_eq_some_iff.mp hclose
          split at h
          · next hlast =>
            have hafter : after = [] := by
              apply List.eq_nil_of_length_eq_zero
              simp only [List.length_cons, List.length_append] at hlast
              omega
            subst hafter
            have hinner : body = inner := by simpa using Lead.enclosing.inj h
            subst hinner
            refine ⟨rfl, hnested, ?_⟩
            rintro rfl
            exact hone rfl
          · contradiction
        · contradiction
      · contradiction
  · rintro ⟨rfl, hnested, hne⟩
    have hclose : matchingClose ('(' :: inner ++ [')']) = some (inner.length + 1) :=
      matchingClose_cons_eq_some_iff.mpr ⟨inner, [], rfl, hnested, rfl⟩
    rw [lead, List.cons_append, List.head?_cons, if_pos rfl, ← List.cons_append, hclose]
    split
    · next h => exact absurd (by simpa using h) hne
    · next close _ h =>
      obtain rfl := Option.some.inj h
      simp
    · next h => simp at h

/-- A text is refused as a hollow group when it starts with a pair of parentheses that holds
nothing, whatever comes after. -/
theorem lead_eq_hollow_iff {text : List Char} : lead text = .hollow ↔ ['(', ')'] <+: text := by
  constructor
  · intro h
    cases text with
    | nil => simp [lead] at h
    | cons c rest =>
      simp only [lead, List.head?_cons, Option.some.injEq] at h
      split at h
      · next hopen =>
        subst hopen
        split at h
        · next hclose =>
          obtain ⟨inner, after, rfl, -, hlength⟩ := matchingClose_cons_eq_some_iff.mp hclose
          have hinner : inner = [] := List.eq_nil_of_length_eq_zero (by omega)
          subst hinner
          exact ⟨after, rfl⟩
        · split at h <;> contradiction
        · contradiction
      · contradiction
  · rintro ⟨after, rfl⟩
    have hclose : matchingClose ('(' :: ')' :: after) = some 1 :=
      matchingClose_cons_eq_some_iff.mpr
        ⟨[], after, rfl, isNested_of_weight_eq_zero (by simp), rfl⟩
    simp [lead, hclose]

/-- Whether a text starts with a hollow group shows in front of its first sign at depth zero. -/
theorem lead_append_symbol_eq_hollow_iff {a : List Char} (op : Operator) (b : List Char)
    (hdepth : depth a = 0) : lead (a ++ op.symbol :: b) = .hollow ↔ lead a = .hollow := by
  rw [lead_eq_hollow_iff, lead_eq_hollow_iff]
  constructor
  · intro h
    obtain hin | hout := List.prefix_or_prefix_of_prefix h (List.prefix_append a _)
    · exact hin
    · rw [List.prefix_cons_iff] at hout
      obtain rfl | ⟨q, rfl, hq⟩ := hout
      · have hsymbol : '(' = op.symbol := (List.cons_prefix_cons.mp h).1
        cases op <;> simp [Operator.symbol] at hsymbol
      · obtain rfl | rfl : q = [] ∨ q = [')'] := by
          simpa [List.prefix_cons_iff] using hq
        · exact absurd hdepth (by decide)
        · exact List.prefix_rfl
  · exact fun h => h.trans (List.prefix_append a _)

end Rearrange.Scan
