import Mathlib.Data.List.DropRight
import Rearrange.Proofs.Markup

namespace Rearrange.Markup

variable {a b text inside : List Char} {c : Char} {k : Nat}

/-- What may stand between the brackets of a tag: a character that opens a tag, and then anything
but brackets. -/
def IsTag : List Char → Prop
  | [] => False
  | c :: body => opensTag c = true ∧ '[' ∉ body ∧ ']' ∉ body

instance : DecidablePred IsTag
  | [] => inferInstanceAs (Decidable False)
  | c :: body => inferInstanceAs (Decidable (opensTag c = true ∧ '[' ∉ body ∧ ']' ∉ body))

/-- A text has a tag with the given inside: its opening bracket comes after an even number of
backslashes. -/
def HasTag (text inside : List Char) : Prop :=
  ∃ before after, text = before ++ '[' :: (inside ++ ']' :: after) ∧ IsTag inside ∧
    (before.rtakeWhile (· = '\\')).length % 2 = 0

/-- A tag has no bracket inside. -/
theorem IsTag.notMem (h : IsTag inside) : '[' ∉ inside ∧ ']' ∉ inside := by
  cases inside with
  | nil => cases h
  | cons c body =>
    obtain ⟨hopens, hopen, hclose⟩ := h
    obtain ⟨hc, hc', -⟩ := opensTag_ne hopens
    exact ⟨List.not_mem_cons_of_ne_of_not_mem hc.symm hopen,
      List.not_mem_cons_of_ne_of_not_mem hc'.symm hclose⟩

/-- The inside of the tag that ends a style. -/
theorem IsTag.slash (h : IsTag inside) : IsTag ('/' :: inside) :=
  ⟨by decide, h.notMem⟩

/-- The tag that an opening bracket begins is the text up to the first closing bracket. -/
theorem tag?_eq_some_iff :
    tag? text = some inside ↔ IsTag inside ∧ ∃ after, text = inside ++ ']' :: after := by
  constructor
  · intro h
    cases text with
    | nil => cases h
    | cons c rest =>
      rw [tag?] at h
      split at h
      · next hopens =>
        obtain ⟨body, hbody, rfl⟩ := Option.map_eq_some_iff.mp h
        obtain ⟨after, rfl, hopen, hclose⟩ := exists_of_untilClose?_eq_some hbody
        exact ⟨⟨hopens, hopen, hclose⟩, after, rfl⟩
      · cases h
  · rintro ⟨htag, after, rfl⟩
    cases inside with
    | nil => cases htag
    | cons c body =>
      obtain ⟨hopens, hopen, hclose⟩ := htag
      rw [List.cons_append, tag?, if_pos hopens, untilClose?_append_of_notMem hopen hclose,
        untilClose?, if_pos rfl]
      simp

/-- A text without brackets has no tag. -/
theorem not_hasTag_of_notMem (h : '[' ∉ text) : ¬ HasTag text inside := by
  rintro ⟨before, after, rfl, -⟩
  exact h (List.mem_append_right before List.mem_cons_self)

/-- Only the backslashes after the last other character count. -/
private theorem rtakeWhile_append_cons (hc : c ≠ '\\') (a b : List Char) :
    (a ++ c :: b).rtakeWhile (· = '\\') = b.rtakeWhile (· = '\\') := by
  induction b using List.reverseRecOn with
  | nil => rw [List.rtakeWhile_concat_neg _ _ _ (by simpa using hc), List.rtakeWhile_nil]
  | append_singleton b d ih =>
    rw [← List.cons_append, ← List.append_assoc, List.rtakeWhile_concat, List.rtakeWhile_concat, ih]

/-- A text without a character comes to an end before that character does in a longer text. -/
private theorem exists_eq_append_of_notMem {before after : List Char} (ha : c ∉ a)
    (h : a ++ b = before ++ c :: after) : ∃ x, before = a ++ x ∧ b = x ++ c :: after := by
  obtain ⟨x, hbefore, hb⟩ | ⟨x, rfl, hx⟩ := List.append_eq_append_iff.mp h
  · exact ⟨x, hbefore, hb⟩
  · cases x with
    | nil => exact ⟨[], by rw [List.append_nil, List.append_nil], hx.symm⟩
    | cons d x =>
      obtain ⟨rfl, -⟩ := List.cons.inj hx
      exact absurd (List.mem_append_right before List.mem_cons_self) ha

/-- A text that holds no opening bracket has a tag at the next character or after it. -/
theorem hasTag_append_cons_iff (ha : '[' ∉ a) (hc : c ≠ '\\') :
    HasTag (a ++ c :: b) inside ↔
      c = '[' ∧ tag? b = some inside ∧ (a.rtakeWhile (· = '\\')).length % 2 = 0 ∨
        HasTag b inside := by
  constructor
  · rintro ⟨before, after, h, htag, heven⟩
    obtain ⟨x, rfl, hx⟩ := exists_eq_append_of_notMem ha h
    cases x with
    | nil =>
      obtain ⟨rfl, rfl⟩ := List.cons.inj hx
      rw [List.append_nil] at heven
      exact .inl ⟨rfl, tag?_eq_some_iff.mpr ⟨htag, after, rfl⟩, heven⟩
    | cons d x =>
      obtain ⟨rfl, rfl⟩ := List.cons.inj hx
      rw [rtakeWhile_append_cons hc] at heven
      exact .inr ⟨x, after, rfl, htag, heven⟩
  · rintro (⟨rfl, hinside, heven⟩ | ⟨before, after, rfl, htag, heven⟩)
    · obtain ⟨htag, after, rfl⟩ := tag?_eq_some_iff.mp hinside
      exact ⟨a, after, rfl, htag, heven⟩
    · refine ⟨a ++ c :: before, after, ?_, htag, ?_⟩
      · rw [List.append_assoc, List.cons_append]
      · rwa [rtakeWhile_append_cons hc]

private theorem tags_of_shown {shown : List Char}
    (h : pieces a = shown.map Piece.char ++ pieces b) : tags a = tags b := by
  simp [tags, h, List.filterMap_map]

private theorem tags_of_tag {shown : List Char}
    (h : pieces a = shown.map Piece.char ++ .tag inside :: pieces b) :
    tags a = inside :: tags b := by
  simp [tags, h, List.filterMap_map]

/-- A text that is shown in full has no tag. -/
theorem tags_eq_nil_of_shown {shown : List Char} (h : pieces a = shown.map Piece.char) :
    tags a = [] := by
  simp [tags, h, List.filterMap_map]

/-- A tag after an even number of backslashes is read. -/
theorem tags_replicate_append_tag (h : IsTag inside) (hk : k % 2 = 0) (b : List Char) :
    tags (List.replicate k '\\' ++ '[' :: (inside ++ ']' :: b)) = inside :: tags b := by
  apply tags_of_tag
  rw [piecesAfter_replicate, piecesAfter_even (tag?_eq_some_iff.mpr ⟨h, b, rfl⟩) hk,
    piecesAfter_close h.notMem.2]

/-- A character that begins no tag or comes after an odd number of backslashes is passed over. -/
theorem tags_replicate_append_cons (hc : c ≠ '\\')
    (h : c = '[' → tag? a = none ∨ k % 2 = 1) :
    tags (List.replicate k '\\' ++ c :: a) = tags a := by
  by_cases hnone : c = '[' → tag? a = none
  · apply tags_of_shown
    rw [piecesAfter_replicate, piecesAfter_of_no_tag hc hnone]
  · obtain ⟨rfl, hsome⟩ := Classical.not_imp.mp hnone
    obtain ⟨inside, hinside⟩ := Option.ne_none_iff_exists'.mp hsome
    obtain ⟨n, rfl⟩ : ∃ n, k = 2 * n + 1 := ⟨k / 2, by have := (h rfl).resolve_left hsome; omega⟩
    apply tags_of_shown
    rw [piecesAfter_replicate, piecesAfter_odd hinside]

/-- Backslashes at the end are shown as they are. -/
theorem pieces_replicate (k : Nat) :
    pieces (List.replicate k '\\') = (List.replicate k '\\').map Piece.char := by
  rw [← List.append_nil (List.replicate k '\\'), piecesAfter_replicate, piecesAfter]
  simp

/-- The tags that are read in a text are those that it has. -/
theorem mem_tags_iff : inside ∈ tags text ↔ HasTag text inside := by
  -- Reading takes in the backslashes before a character first, and a tag that is read as a whole.
  suffices hrun : ∀ n a k, a.length = n → (inside ∈ tags (List.replicate k '\\' ++ a) ↔
      HasTag (List.replicate k '\\' ++ a) inside) from hrun _ text 0 rfl
  have hopen : ∀ k, '[' ∉ List.replicate k '\\' := fun k h =>
    absurd (List.eq_of_mem_replicate h) (by decide)
  have hend : ∀ k, (List.replicate k '\\').rtakeWhile (· = '\\') = List.replicate k '\\' :=
    fun k => List.rtakeWhile_eq_self_iff.mpr fun x hx => by simpa using List.eq_of_mem_replicate hx
  intro n
  induction n using Nat.strongRecOn with
  | ind n ih =>
    rintro a k rfl
    cases a with
    | nil =>
      rw [List.append_nil, tags_eq_nil_of_shown (pieces_replicate k)]
      exact iff_of_false List.not_mem_nil (not_hasTag_of_notMem (hopen k))
    | cons c a =>
      by_cases hc : c = '\\'
      · subst hc
        rw [← replicate_succ_append]
        exact ih _ (Nat.lt_succ_self a.length) a (k + 1) rfl
      rw [hasTag_append_cons_iff (hopen k) hc, hend, List.length_replicate]
      by_cases hread : c = '[' → tag? a = none ∨ k % 2 = 1
      · rw [tags_replicate_append_cons hc hread]
        have hrest := ih _ (Nat.lt_succ_self a.length) a 0 rfl
        rw [List.replicate_zero, List.nil_append] at hrest
        rw [hrest, iff_or_self]
        rintro ⟨hc, hinside, heven⟩
        have := (hread hc).resolve_left (Option.ne_none_iff_exists'.mpr ⟨inside, hinside⟩)
        omega
      · obtain ⟨rfl, hsome⟩ := Classical.not_imp.mp hread
        obtain ⟨hsome, hk⟩ := not_or.mp hsome
        obtain ⟨x, hx⟩ := Option.ne_none_iff_exists'.mp hsome
        obtain ⟨htag, after, rfl⟩ := tag?_eq_some_iff.mp hx
        have heven : k % 2 = 0 := by omega
        have hrest := ih _ (by simp; omega) after 0 rfl
        rw [List.replicate_zero, List.nil_append] at hrest
        rw [tags_replicate_append_tag htag heven, List.mem_cons, hrest, hx,
          hasTag_append_cons_iff htag.notMem.1 (by decide)]
        simp [heven, eq_comm]

/-- No tag is read in a text without brackets. -/
theorem tags_of_notMem (h : '[' ∉ text) : tags text = [] :=
  List.eq_nil_iff_forall_not_mem.mpr fun _ hmem => not_hasTag_of_notMem h (mem_tags_iff.mp hmem)

/-- A text without backslashes and brackets adds no tag. -/
theorem tags_append_of_notMem (hescape : '\\' ∉ a) (hopen : '[' ∉ a) (b : List Char) :
    tags (a ++ b) = tags b :=
  tags_of_shown (pieces_append_of_notMem hescape hopen b)

theorem tags_blank_cons (a : List Char) : tags (' ' :: a) = tags a :=
  tags_append_of_notMem (a := [' ']) (by decide) (by decide) a

/-- A tag is not closed by a text without closing brackets. -/
theorem tag?_append_of_notMem (hb : ']' ∉ b) (a : List Char) : tag? (a ++ b) = tag? a := by
  by_cases hmem : '[' ∈ a ∨ ']' ∈ a
  · exact tag?_append_of_mem hmem b
  · rw [not_or] at hmem
    rw [tag?_eq_none_of_notMem hmem.2,
      tag?_eq_none_of_notMem fun h => (List.mem_append.mp h).elim hmem.2 hb]

/-- Escaped text is shown as it is before any number of backslashes at the end. -/
theorem pieces_escapeAfter_append_replicate (k n : Nat) (a : List Char) :
    pieces (escapeAfter k a ++ List.replicate n '\\') =
      (List.replicate k '\\' ++ a ++ List.replicate n '\\').map Piece.char := by
  induction a generalizing k with
  | nil =>
    rw [escapeAfter, List.append_nil, List.replicate_append_replicate, pieces_replicate]
  | cons c a ih =>
    by_cases hc : c = '\\'
    · subst hc
      rw [escapeAfter_backslash, ih, replicate_succ_append]
    · have hclose : ']' ∉ List.replicate n '\\' := fun h =>
        absurd (List.eq_of_mem_replicate h) (by decide)
      rw [pieces_escapeAfter_cons hc fun _ => tag?_append_of_notMem hclose a, ih]
      simp

/-- Escaped text is shown as it is, with one more backslash at the end if need be. -/
theorem exists_pieces_escape (a : List Char) :
    ∃ n ≤ 1, pieces (escape a) = (a ++ List.replicate n '\\').map Piece.char := by
  rw [escape]
  by_cases hend : endsWithOneBackslash (escapeAfter 0 a) = true
  · refine ⟨1, Nat.le_refl 1, ?_⟩
    rw [if_pos hend]
    exact pieces_escapeAfter_append_replicate 0 1 a
  · refine ⟨0, Nat.zero_le 1, ?_⟩
    rw [if_neg hend, ← List.append_nil (escapeAfter 0 a)]
    exact pieces_escapeAfter_append_replicate 0 0 a

/-- No tag is read in an escaped text. -/
theorem tags_escape (a : List Char) : tags (escape a) = [] := by
  obtain ⟨n, -, hpieces⟩ := exists_pieces_escape a
  exact tags_eq_nil_of_shown hpieces

/-- A text without backslashes and brackets is escaped as it is. -/
theorem escape_of_notMem (hescape : '\\' ∉ text) (hopen : '[' ∉ text) : escape text = text := by
  rw [escape_eq fun h => hescape (List.mem_of_getLast? h), escapeAfter_of_notMem hopen]
  rfl

/-- The tags that a text in a style has. -/
def styleTags (style : String) : List (List Char) :=
  [style.toList, '/' :: style.toList]

/-- Styled text adds the tags of its style. -/
theorem tags_styled_append {style : String} (h : IsTag style.toList) (hescape : '\\' ∉ text)
    (hopen : '[' ∉ text) (after : List Char) :
    tags (styled style text ++ after) = styleTags style ++ tags after := by
  have hstyled : styled style text ++ after =
      List.replicate 0 '\\' ++ '[' :: (style.toList ++ ']' :: (text ++
        (List.replicate 0 '\\' ++ '[' :: ('/' :: style.toList ++ ']' :: after)))) := by
    simp [styled]
  rw [hstyled, tags_replicate_append_tag h rfl, tags_append_of_notMem hescape hopen,
    tags_replicate_append_tag h.slash rfl]
  rfl

/-- Styled text has the tags of its style and no others. -/
theorem tags_styled {style : String} (h : IsTag style.toList) (hescape : '\\' ∉ text)
    (hopen : '[' ∉ text) : tags (styled style text) = styleTags style := by
  rw [← List.append_nil (styled style text), tags_styled_append h hescape hopen]
  rfl

end Rearrange.Markup
