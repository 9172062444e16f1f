import Rearrange.Parse.Scan

namespace Rearrange.Scan

theorem depth_append (a b : List Char) : depth (a ++ b) = depth a + depth b := by
  induction a with
  | nil => simp [depth]
  | cons c a ih =>
    simp only [List.cons_append, depth, ih]
    omega

/-- The depth is what opening parentheses have over closing ones. -/
theorem depth_eq_count_sub (text : List Char) :
    depth text = (text.count '(' : Int) - text.count ')' := by
  induction text with
  | nil => rfl
  | cons c rest ih =>
    rw [depth, ih, weight]
    by_cases hopen : c = '('
    · subst hopen
      simp
      omega
    · by_cases hclose : c = ')'
      · subst hclose
        simp
        omega
      · simp [hopen, hclose]

/-- A text is balanced when it ends at the depth it starts at. -/
theorem isBalanced_iff_depth {text : List Char} : isBalanced text = true ↔ depth text = 0 := by
  rw [isBalanced, beq_iff_eq, depth_eq_count_sub]
  omega

/-- A character that is no parenthesis leaves the depth as it is. -/
theorem weight_eq_zero {c : Char} (hopen : c ≠ '(') (hclose : c ≠ ')') : weight c = 0 := by
  simp [weight, hopen, hclose]

theorem weight_eq_neg_one_iff {c : Char} : weight c = -1 ↔ c = ')' := by
  rw [weight]
  split
  · next hopen => simp [hopen]
  · split <;> simp_all

theorem neg_one_le_weight (c : Char) : -1 ≤ weight c := by
  rw [weight]
  split
  · omega
  · split <;> omega

/-- The parentheses of the text pair off. -/
structure IsNested (text : List Char) : Prop where
  depth_eq : depth text = 0
  depth_nonneg : ∀ p, p <+: text → 0 ≤ depth p

/-- A text without parentheses is nested. -/
theorem isNested_of_weight_eq_zero {text : List Char} (hweight : ∀ c ∈ text, weight c = 0) :
    IsNested text := by
  have hzero : ∀ p : List Char, (∀ c ∈ p, weight c = 0) → depth p = 0 := by
    intro p hp
    induction p with
    | nil => rfl
    | cons c p ih =>
      rw [depth, hp c List.mem_cons_self, ih fun d hd => hp d (List.mem_cons_of_mem c hd)]
      rfl
  refine ⟨hzero text hweight, fun p hp => ?_⟩
  exact Int.le_of_eq (hzero p fun c hc => hweight c (hp.subset hc)).symm

/-- A nested text may follow another. -/
theorem IsNested.append {a b : List Char} (ha : IsNested a) (hb : IsNested b) :
    IsNested (a ++ b) := by
  refine ⟨by rw [depth_append, ha.depth_eq, hb.depth_eq]; rfl, fun p hp => ?_⟩
  rcases List.prefix_or_prefix_of_prefix hp (List.prefix_append a b) with h | ⟨q, rfl⟩
  · exact ha.depth_nonneg p h
  · have hq := hb.depth_nonneg q ((List.prefix_append_right_inj a).mp hp)
    rw [depth_append, ha.depth_eq]
    omega

/-- What stands behind a balanced beginning of a nested text and is balanced itself is nested. -/
theorem IsNested.of_append_append {a b c : List Char} (h : IsNested (a ++ b ++ c))
    (ha : depth a = 0) (hb : depth b = 0) : IsNested b := by
  refine ⟨hb, fun p hp => ?_⟩
  have hprefix : a ++ p <+: a ++ b ++ c :=
    ((List.prefix_append_right_inj a).mpr hp).trans (List.prefix_append _ c)
  have := h.depth_nonneg _ hprefix
  rw [depth_append] at this
  omega

/-- Inside a group the depth is positive, right up to the parenthesis that closes it. -/
theorem IsNested.depth_cons_pos {inner p : List Char} (h : IsNested inner) (hp : p <+: inner) :
    0 < depth ('(' :: p) := by
  have := h.depth_nonneg p hp
  rw [depth, show weight '(' = 1 from rfl]
  omega

/-- A nested text in parentheses is nested. -/
theorem IsNested.group {inner : List Char} (h : IsNested inner) :
    IsNested ('(' :: inner ++ [')']) := by
  constructor
  · rw [depth_append, depth, h.depth_eq]
    rfl
  · intro p hp
    rw [List.cons_append, List.prefix_cons_iff] at hp
    obtain rfl | ⟨q, rfl, hq⟩ := hp
    · exact Int.le_refl 0
    · rw [List.prefix_concat_iff] at hq
      obtain rfl | hq := hq
      · rw [depth, depth_append, h.depth_eq]
        decide
      · exact Int.le_of_lt (h.depth_cons_pos hq)

end Rearrange.Scan
