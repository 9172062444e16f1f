import Mathlib.Data.List.Basic
import Rearrange.Markup

namespace Rearrange.Markup

variable {a b rest inside : List Char} {c : Char} {k : Nat}

/-- What follows the last opening bracket of a text, if no closing bracket does. -/
def openBracket? : List Char → Option (List Char)
  | [] => none
  | c :: rest =>
    if c = '[' ∧ '[' ∉ rest ∧ ']' ∉ rest then some rest else openBracket? rest

/-- The inside of the tag that opens in one text and is closed in the next one, if there is such a
tag. -/
def joinedTag? (before after : List Char) : Option (List Char) :=
  (openBracket? before).bind fun rest => tag? (rest ++ after)

/-- In a text that follows some backslashes, every opening bracket comes after an even number of
backslashes. -/
def IsPaired (backslashes : Nat) : List Char → Prop
  | [] => True
  | c :: rest =>
    if c = '\\' then IsPaired (backslashes + 1) rest
    else (c = '[' → backslashes % 2 = 0) ∧ IsPaired 0 rest

theorem isPaired_backslash (k : Nat) (a : List Char) :
    IsPaired k ('\\' :: a) ↔ IsPaired (k + 1) a := by
  rw [IsPaired, if_pos rfl]

/-- A bracket needs an even number of backslashes and starts the count anew. -/
theorem isPaired_open (k : Nat) (a : List Char) :
    IsPaired k ('[' :: a) ↔ k % 2 = 0 ∧ IsPaired 0 a := by
  simp [IsPaired]

theorem isPaired_of_ne (hc : c ≠ '\\') (hopen : c ≠ '[') (k : Nat) (a : List Char) :
    IsPaired k (c :: a) ↔ IsPaired 0 a := by
  simp [IsPaired, hc, hopen]

/-- A text without backslashes and brackets may stand before a paired one. -/
theorem isPaired_append_of_notMem (hescape : '\\' ∉ a) (hopen : '[' ∉ a) (h : IsPaired 0 b) :
    IsPaired 0 (a ++ b) := by
  induction a with
  | nil => exact h
  | cons c a ih =>
    rw [List.mem_cons, not_or] at hescape hopen
    rw [List.cons_append, isPaired_of_ne (Ne.symm hescape.1) (Ne.symm hopen.1)]
    exact ih hescape.2 hopen.2

/-- The closing bracket is looked for in the next text when this one has no bracket. -/
theorem untilClose?_append_of_notMem (hopen : '[' ∉ a) (hclose : ']' ∉ a) (b : List Char) :
    untilClose? (a ++ b) = (untilClose? b).map (a ++ ·) := by
  induction a with
  | nil => simp
  | cons c a ih =>
    rw [List.mem_cons, not_or] at hopen hclose
    rw [List.cons_append, untilClose?, if_neg (Ne.symm hclose.1), if_neg (Ne.symm hopen.1),
      ih hopen.2 hclose.2, Option.map_map]
    rfl

/-- The first bracket decides, whatever comes after it. -/
theorem untilClose?_append_of_mem (h : '[' ∈ a ∨ ']' ∈ a) (b : List Char) :
    untilClose? (a ++ b) = untilClose? a := by
  induction a with
  | nil => simp at h
  | cons c a ih =>
    rw [List.cons_append, untilClose?, untilClose?]
    by_cases hclose : c = ']'
    · rw [if_pos hclose, if_pos hclose]
    by_cases hopen : c = '['
    · rw [if_neg hclose, if_neg hclose, if_pos hopen, if_pos hopen]
    · rw [if_neg hclose, if_neg hclose, if_neg hopen, if_neg hopen, ih]
      rw [List.mem_cons, List.mem_cons] at h
      exact h.imp (Or.resolve_left · (Ne.symm hopen)) (Or.resolve_left · (Ne.symm hclose))

/-- Without a closing bracket there is nothing up to it. -/
private theorem untilClose?_eq_none_of_notMem (h : ']' ∉ a) : untilClose? a = none := by
  induction a with
  | nil => rfl
  | cons c a ih =>
    rw [List.mem_cons, not_or] at h
    rw [untilClose?, if_neg (Ne.symm h.1), ih h.2, Option.map_none, ite_self]

/-- What comes before the closing bracket has no bracket in it. -/
theorem exists_of_untilClose?_eq_some (h : untilClose? a = some inside) :
    ∃ rest, a = inside ++ ']' :: rest ∧ '[' ∉ inside ∧ ']' ∉ inside := by
  induction a generalizing inside with
  | nil => cases h
  | cons c a ih =>
    rw [untilClose?] at h
    split at h
    · next hclose =>
      obtain rfl := Option.some.inj h
      exact ⟨a, by rw [hclose, List.nil_append], List.not_mem_nil, List.not_mem_nil⟩
    · next hclose =>
      split at h
      · cases h
      · next hopen =>
        obtain ⟨inside, hinside, rfl⟩ := Option.map_eq_some_iff.mp h
        obtain ⟨rest, rfl, hnoOpen, hnoClose⟩ := ih hinside
        refine ⟨rest, rfl, ?_, ?_⟩
        · exact List.not_mem_cons_of_ne_of_not_mem (Ne.symm hopen) hnoOpen
        · exact List.not_mem_cons_of_ne_of_not_mem (Ne.symm hclose) hnoClose

/-- A tag starts with neither a bracket nor a backslash. -/
theorem opensTag_ne (h : opensTag c = true) : c ≠ '[' ∧ c ≠ ']' ∧ c ≠ '\\' := by
  refine ⟨?_, ?_, ?_⟩ <;> rintro rfl <;> exact absurd h (by decide)

/-- The first bracket decides whether there is a tag, whatever comes after it. -/
theorem tag?_append_of_mem (h : '[' ∈ a ∨ ']' ∈ a) (b : List Char) : tag? (a ++ b) = tag? a := by
  cases a with
  | nil => simp at h
  | cons c a =>
    rw [List.cons_append, tag?, tag?]
    by_cases hopens : opensTag c = true
    · obtain ⟨hopen, hclose, -⟩ := opensTag_ne hopens
      rw [List.mem_cons, List.mem_cons] at h
      rw [untilClose?_append_of_mem
        (h.imp (Or.resolve_left · (Ne.symm hopen)) (Or.resolve_left · (Ne.symm hclose)))]
    · rw [if_neg hopens, if_neg hopens]

/-- Without a closing bracket there is no tag. -/
theorem tag?_eq_none_of_notMem (h : ']' ∉ a) : tag? a = none := by
  cases a with
  | nil => rfl
  | cons c a =>
    rw [List.mem_cons, not_or] at h
    rw [tag?, untilClose?_eq_none_of_notMem h.2, Option.map_none, ite_self]

/-- Whether a tag is closed is decided by what comes up to the first bracket after it. -/
private theorem tag?_append_congr {x y : List Char} (ha : a ≠ [])
    (h : untilClose? x = untilClose? y) : tag? (a ++ x) = tag? (a ++ y) := by
  cases a with
  | nil => exact absurd rfl ha
  | cons c a =>
    rw [List.cons_append, List.cons_append, tag?, tag?]
    by_cases hmem : '[' ∈ a ∨ ']' ∈ a
    · rw [untilClose?_append_of_mem hmem, untilClose?_append_of_mem hmem]
    · rw [not_or] at hmem
      rw [untilClose?_append_of_notMem hmem.1 hmem.2, untilClose?_append_of_notMem hmem.1 hmem.2, h]

/-- An opening bracket ends the search as the end of the text does. -/
private theorem untilClose?_append_open (a b : List Char) :
    untilClose? (a ++ '[' :: b) = untilClose? a := by
  by_cases hmem : '[' ∈ a ∨ ']' ∈ a
  · exact untilClose?_append_of_mem hmem _
  · rw [not_or] at hmem
    rw [untilClose?_append_of_notMem hmem.1 hmem.2, untilClose?_eq_none_of_notMem hmem.2]
    rfl

/-- No tag is closed by a text that has an opening bracket first. -/
theorem tag?_append_open (a b : List Char) : tag? (a ++ '[' :: b) = tag? a := by
  cases a with
  | nil => rfl
  | cons c a => rw [List.cons_append, tag?, tag?, untilClose?_append_open]

/-- A tag is closed. -/
private theorem exists_untilClose?_of_tag? (h : tag? a = some inside) :
    ∃ x, untilClose? a = some x := by
  cases a with
  | nil => cases h
  | cons c a =>
    rw [tag?] at h
    split at h
    · next hopens =>
      obtain ⟨hopen, hclose, -⟩ := opensTag_ne hopens
      obtain ⟨x, hx, -⟩ := Option.map_eq_some_iff.mp h
      exact ⟨c :: x, by rw [untilClose?, if_neg hclose, if_neg hopen, hx, Option.map_some]⟩
    · cases h

/-- A tag has no closing bracket inside. -/
theorem notMem_of_tag? (h : tag? a = some inside) : ']' ∉ inside := by
  cases a with
  | nil => cases h
  | cons c a =>
    rw [tag?] at h
    split at h
    · next hopens =>
      obtain ⟨x, hx, rfl⟩ := Option.map_eq_some_iff.mp h
      obtain ⟨-, -, -, hclose⟩ := exists_of_untilClose?_eq_some hx
      exact List.not_mem_cons_of_ne_of_not_mem (Ne.symm (opensTag_ne hopens).2.1) hclose
    · cases h

/-- Without an opening bracket none is left open. -/
private theorem openBracket?_eq_none_of_notMem (h : '[' ∉ a) : openBracket? a = none := by
  induction a with
  | nil => rfl
  | cons c a ih =>
    rw [List.mem_cons, not_or] at h
    rw [openBracket?, if_neg fun hopen => h.1 hopen.1.symm, ih h.2]

theorem joinedTag?_cons_of_ne (hc : c ≠ '[') (a b : List Char) :
    joinedTag? (c :: a) b = joinedTag? a b := by
  rw [joinedTag?, openBracket?, if_neg fun h => hc h.1, joinedTag?]

/-- A bracket with another one after it does not start a tag that goes on in the next text. -/
theorem joinedTag?_open_of_mem (h : '[' ∈ a ∨ ']' ∈ a) (b : List Char) :
    joinedTag? ('[' :: a) b = joinedTag? a b := by
  rw [joinedTag?, openBracket?, if_neg fun hnone => not_or_intro hnone.2.1 hnone.2.2 h, joinedTag?]

/-- A bracket that is left open starts a tag when the next text closes it. -/
theorem joinedTag?_open_of_notMem (hopen : '[' ∉ a) (hclose : ']' ∉ a) (b : List Char) :
    joinedTag? ('[' :: a) b = tag? (a ++ b) := by
  rw [joinedTag?, openBracket?, if_pos ⟨rfl, hopen, hclose⟩, Option.bind_some]

/-- No bracket follows one that is left open. -/
private theorem notMem_of_openBracket? (h : openBracket? a = some rest) :
    '[' ∉ rest ∧ ']' ∉ rest := by
  induction a with
  | nil => cases h
  | cons c a ih =>
    rw [openBracket?] at h
    split at h
    · next hopen =>
      obtain rfl := Option.some.inj h
      exact hopen.2
    · exact ih h

/-- A text that starts with an opening bracket closes no tag. -/
theorem joinedTag?_open (a b : List Char) : joinedTag? a ('[' :: b) = none := by
  rw [joinedTag?, Option.bind_eq_none_iff]
  intro rest hrest
  rw [tag?_append_open]
  exact tag?_eq_none_of_notMem (notMem_of_openBracket? hrest).2

/-- A tag that goes on in the next text is closed there. -/
private theorem exists_untilClose?_of_joinedTag? (h : joinedTag? a b = some inside) :
    ∃ x, untilClose? b = some x := by
  obtain ⟨rest, hrest, htag⟩ := Option.bind_eq_some_iff.mp h
  obtain ⟨hopen, hclose⟩ := notMem_of_openBracket? hrest
  obtain ⟨x, hx⟩ := exists_untilClose?_of_tag? htag
  rw [untilClose?_append_of_notMem hopen hclose] at hx
  obtain ⟨y, hy, -⟩ := Option.map_eq_some_iff.mp hx
  exact ⟨y, hy⟩

/-- A backslash is held back until it is known what it stands before. -/
theorem escapeAfter_backslash (k : Nat) (a : List Char) :
    escapeAfter k ('\\' :: a) = escapeAfter (k + 1) a := by
  rw [escapeAfter, if_pos rfl]

theorem escapeAfter_of_ne (hc : c ≠ '\\') (hopen : c ≠ '[') (k : Nat) (a : List Char) :
    escapeAfter k (c :: a) = List.replicate k '\\' ++ c :: escapeAfter 0 a := by
  simp [escapeAfter, hc, hopen]

/-- Before a tag backslashes are doubled, and one more escapes the bracket. -/
theorem escapeAfter_open_of_tag (h : tag? a = some inside) (k : Nat) :
    escapeAfter k ('[' :: a) = List.replicate (2 * k + 1) '\\' ++ '[' :: escapeAfter 0 a := by
  simp [escapeAfter, h]

/-- A bracket that starts no tag is not escaped. -/
theorem escapeAfter_open_of_no_tag (h : tag? a = none) (k : Nat) :
    escapeAfter k ('[' :: a) = List.replicate k '\\' ++ '[' :: escapeAfter 0 a := by
  simp [escapeAfter, h]

/-- No backslash before a bracket gets lost. -/
theorem exists_escapeAfter_open (k : Nat) (a : List Char) : ∃ m, k ≤ m ∧
    escapeAfter k ('[' :: a) = List.replicate m '\\' ++ '[' :: escapeAfter 0 a := by
  cases htag : tag? a with
  | none => exact ⟨k, Nat.le_refl k, escapeAfter_open_of_no_tag htag k⟩
  | some inside => exact ⟨2 * k + 1, by omega, escapeAfter_open_of_tag htag k⟩

theorem replicate_succ_append (k : Nat) (a : List Char) :
    List.replicate (k + 1) '\\' ++ a = List.replicate k '\\' ++ '\\' :: a := by
  rw [List.replicate_succ', List.append_assoc, List.singleton_append]

/-- Backslashes are passed over in the search for a closing bracket. -/
private theorem untilClose?_replicate (k : Nat) (a : List Char) :
    untilClose? (List.replicate k '\\' ++ a) =
      (untilClose? a).map (List.replicate k '\\' ++ ·) := by
  apply untilClose?_append_of_notMem
  · exact fun h => absurd (List.eq_of_mem_replicate h) (by decide)
  · exact fun h => absurd (List.eq_of_mem_replicate h) (by decide)

/-- Escaping changes nothing before the first bracket, unless that opens a tag. -/
private theorem untilClose?_escapeAfter (k : Nat) (a b : List Char) :
    untilClose? (escapeAfter k a ++ b) = untilClose? (List.replicate k '\\' ++ a ++ b) := by
  induction a generalizing k with
  | nil => rw [escapeAfter, List.append_nil]
  | cons c a ih =>
    by_cases hc : c = '\\'
    · subst hc
      rw [escapeAfter_backslash, ih, replicate_succ_append]
    · rw [List.append_assoc, untilClose?_replicate, List.cons_append, untilClose?]
      by_cases hopen : c = '['
      · subst hopen
        obtain ⟨m, -, hescaped⟩ := exists_escapeAfter_open k a
        rw [hescaped, List.append_assoc, untilClose?_replicate]
        rfl
      · have hafter := ih 0
        rw [List.replicate_zero, List.nil_append] at hafter
        rw [escapeAfter_of_ne hc hopen, List.append_assoc, untilClose?_replicate, List.cons_append,
          untilClose?, hafter]

/-- After a backslash the escaped text starts with one. -/
theorem exists_escapeAfter_succ (k : Nat) (a : List Char) :
    ∃ x, escapeAfter (k + 1) a = '\\' :: x := by
  induction a generalizing k with
  | nil => exact ⟨_, rfl⟩
  | cons c a ih =>
    by_cases hc : c = '\\'
    · subst hc
      exact ih (k + 1)
    by_cases hopen : c = '['
    · subst hopen
      obtain ⟨m, hm, hescaped⟩ := exists_escapeAfter_open (k + 1) a
      obtain ⟨n, rfl⟩ := Nat.exists_eq_add_of_lt hm
      exact ⟨_, hescaped⟩
    · exact ⟨_, escapeAfter_of_ne hc hopen (k + 1) a⟩

/-- Escaping neither makes a tag nor does away with one that stands right at the front. -/
theorem tag?_escapeAfter (a b : List Char) : tag? (escapeAfter 0 a ++ b) = tag? (a ++ b) := by
  cases a with
  | nil => rfl
  | cons c a =>
    by_cases hc : c = '\\'
    · subst hc
      obtain ⟨x, hx⟩ := exists_escapeAfter_succ 0 a
      rw [escapeAfter_backslash, hx]
      rfl
    by_cases hopen : c = '['
    · subst hopen
      obtain ⟨m, -, hescaped⟩ := exists_escapeAfter_open 0 a
      rw [hescaped]
      cases m <;> rfl
    · have hafter := untilClose?_escapeAfter 0 a b
      rw [escapeAfter_of_ne hc hopen, List.replicate_zero, List.nil_append, List.cons_append,
        List.cons_append, tag?, tag?, hafter]
      rfl

/-- Escaping a text makes no difference to a tag that it closes. -/
theorem joinedTag?_escapeAfter (a b t : List Char) :
    joinedTag? a (escapeAfter 0 b ++ '[' :: t) = joinedTag? a b := by
  rw [joinedTag?, joinedTag?]
  refine congrArg _ (funext fun rest => ?_)
  cases rest with
  | nil => rw [List.nil_append, tag?_escapeAfter, tag?_append_open, List.nil_append]
  | cons c rest =>
    refine tag?_append_congr (List.cons_ne_nil _ _) ?_
    rw [untilClose?_escapeAfter, List.replicate_zero, List.nil_append, untilClose?_append_open]

/-- Without an opening bracket nothing is escaped. -/
theorem escapeAfter_of_notMem (h : '[' ∉ a) (k : Nat) :
    escapeAfter k a = List.replicate k '\\' ++ a := by
  induction a generalizing k with
  | nil => rw [escapeAfter, List.append_nil]
  | cons c a ih =>
    rw [List.mem_cons, not_or] at h
    by_cases hc : c = '\\'
    · subst hc
      rw [escapeAfter_backslash, ih h.2, replicate_succ_append]
    · rw [escapeAfter_of_ne hc (Ne.symm h.1), ih h.2, List.replicate_zero, List.nil_append]

/-- What stands after the first bracket is escaped by itself. -/
theorem escapeAfter_append_close (h : '[' ∉ a) (b : List Char) :
    escapeAfter 0 (a ++ ']' :: b) = a ++ ']' :: escapeAfter 0 b := by
  suffices hrun : ∀ k, escapeAfter k (a ++ ']' :: b) =
      List.replicate k '\\' ++ a ++ ']' :: escapeAfter 0 b from hrun 0
  induction a with
  | nil => exact fun k => by simp [escapeAfter_of_ne]
  | cons c a ih =>
    intro k
    rw [List.mem_cons, not_or] at h
    rw [List.cons_append]
    by_cases hc : c = '\\'
    · subst hc
      rw [escapeAfter_backslash, ih h.2, replicate_succ_append]
    · rw [escapeAfter_of_ne hc (Ne.symm h.1), ih h.2]
      simp

/-- Escaping keeps the last character, unless it is a backslash. -/
theorem exists_escapeAfter_concat (hc : c ≠ '\\') (k : Nat) (a : List Char) :
    ∃ x, escapeAfter k (a ++ [c]) = x ++ [c] := by
  induction a generalizing k with
  | nil =>
    by_cases hopen : c = '['
    · subst hopen
      exact ⟨List.replicate k '\\', escapeAfter_open_of_no_tag rfl k⟩
    · exact ⟨List.replicate k '\\', escapeAfter_of_ne hc hopen k []⟩
  | cons d a ih =>
    by_cases hd : d = '\\'
    · subst hd
      exact ih (k + 1)
    obtain ⟨x, hx⟩ := ih 0
    by_cases hopen : d = '['
    · subst hopen
      obtain ⟨m, -, hescaped⟩ := exists_escapeAfter_open k (a ++ [c])
      exact ⟨List.replicate m '\\' ++ '[' :: x, by
        rw [List.cons_append, hescaped, hx, List.append_assoc, List.cons_append]⟩
    · exact ⟨List.replicate k '\\' ++ d :: x, by
        rw [List.cons_append, escapeAfter_of_ne hd hopen, hx, List.append_assoc, List.cons_append]⟩

/-- A text that does not end with a backslash has only its tags escaped. -/
theorem escape_eq (h : a.getLast? ≠ some '\\') : escape a = escapeAfter 0 a := by
  obtain rfl | ⟨body, c, rfl⟩ := List.eq_nil_or_concat a
  · rfl
  rw [List.concat_eq_append, List.getLast?_concat] at h
  have hc : c ≠ '\\' := fun hc => h (congrArg some hc)
  rw [List.concat_eq_append]
  obtain ⟨x, hx⟩ := exists_escapeAfter_concat hc 0 body
  have hend : endsWithOneBackslash (x ++ [c]) = false := by
    rw [endsWithOneBackslash, List.reverse_concat]
    split
    · next h => exact absurd (List.cons.inj h).1 hc
    · next h => exact absurd (List.cons.inj h).1 hc
    · rfl
  rw [escape, hx, hend]
  rfl

theorem piecesAfter_backslash (k : Nat) (a : List Char) :
    piecesAfter k false ('\\' :: a) = piecesAfter (k + 1) false a := by
  simp [piecesAfter]

/-- Backslashes are counted one by one. -/
theorem piecesAfter_replicate (k : Nat) (a : List Char) :
    pieces (List.replicate k '\\' ++ a) = piecesAfter k false a := by
  suffices hrun : ∀ n, piecesAfter n false (List.replicate k '\\' ++ a) =
      piecesAfter (n + k) false a by simpa [pieces] using hrun 0
  induction k with
  | zero => exact fun n => rfl
  | succ k ih =>
    intro n
    rw [List.replicate_succ, List.cons_append, piecesAfter_backslash, ih, Nat.add_assoc,
      Nat.add_comm 1]

/-- A character that is not a backslash and opens no tag is shown, after the backslashes before
it. -/
theorem piecesAfter_of_no_tag (hc : c ≠ '\\') (h : c = '[' → tag? a = none) (k : Nat) :
    piecesAfter k false (c :: a) =
      (List.replicate k '\\' ++ [c]).map Piece.char ++ pieces a := by
  by_cases hopen : c = '['
  · simp [piecesAfter, hopen, h hopen, pieces]
  · simp [piecesAfter, hc, hopen, pieces]

/-- An odd number of backslashes keeps a tag from being read. -/
theorem piecesAfter_odd (h : tag? a = some inside) (k : Nat) :
    piecesAfter (2 * k + 1) false ('[' :: a) =
      (List.replicate k '\\' ++ ['[']).map Piece.char ++ pieces a := by
  have hhalf : (2 * k + 1) / 2 = k := by omega
  simp [piecesAfter, h, hhalf, pieces]

/-- After an even number of backslashes a tag is read, and half of them are shown. -/
theorem piecesAfter_even (h : tag? a = some inside) (hk : k % 2 = 0) :
    piecesAfter k false ('[' :: a) =
      (List.replicate (k / 2) '\\').map Piece.char ++ .tag inside :: piecesAfter 0 true a := by
  simp [piecesAfter, h, hk]

/-- Reading passes over what is inside a tag. -/
theorem piecesAfter_append_of_notMem (h : ']' ∉ a) (b : List Char) :
    piecesAfter 0 true (a ++ b) = piecesAfter 0 true b := by
  induction a with
  | nil => rfl
  | cons c a ih =>
    rw [List.mem_cons, not_or] at h
    have hc : (c != ']') = true := by simpa using Ne.symm h.1
    rw [List.cons_append, piecesAfter, if_pos rfl, hc, ih h.2]

/-- The text goes on after the closing bracket of a tag. -/
theorem piecesAfter_close (h : ']' ∉ a) (b : List Char) :
    piecesAfter 0 true (a ++ ']' :: b) = pieces b :=
  piecesAfter_append_of_notMem h (']' :: b)

/-- A tag that stands in a text by itself is read. -/
theorem pieces_tag (h : tag? (inside ++ [']']) = some inside) (b : List Char) :
    pieces ('[' :: inside ++ ']' :: b) = .tag inside :: pieces b := by
  have htag : tag? (inside ++ ']' :: b) = some inside := by
    rw [← List.singleton_append, ← List.append_assoc, tag?_append_of_mem (.inr (by simp)), h]
  rw [List.cons_append, pieces, piecesAfter_even htag rfl,
    piecesAfter_close (notMem_of_tag? h)]
  rfl

/-- A style begins with its tag and ends with the tag that has a slash. -/
theorem pieces_styled {style : String} (h : tag? (style.toList ++ [']']) = some style.toList)
    (text after : List Char) :
    pieces (styled style text ++ after) = .tag style.toList ::
      pieces (text ++ ('[' :: '/' :: style.toList ++ ']' :: after)) := by
  rw [styled, ← pieces_tag h]
  simp

/-- A text without backslashes and brackets is shown as it is. -/
theorem pieces_append_of_notMem (hescape : '\\' ∉ a) (hopen : '[' ∉ a) (b : List Char) :
    pieces (a ++ b) = a.map Piece.char ++ pieces b := by
  induction a with
  | nil => rfl
  | cons c a ih =>
    rw [List.mem_cons, not_or] at hescape hopen
    rw [List.cons_append, pieces, piecesAfter_of_no_tag (Ne.symm hescape.1)
      fun hc => absurd hc.symm hopen.1, ih hescape.2 hopen.2]
    rfl

/-- A character of escaped text is shown, unless it opens a tag that is closed after the text. -/
theorem pieces_escapeAfter_cons (hc : c ≠ '\\') (h : c = '[' → tag? (a ++ b) = tag? a) (k : Nat) :
    pieces (escapeAfter k (c :: a) ++ b) =
      (List.replicate k '\\' ++ [c]).map Piece.char ++ pieces (escapeAfter 0 a ++ b) := by
  by_cases hopen : c = '['
  · subst hopen
    have hread : tag? (escapeAfter 0 a ++ b) = tag? a := (tag?_escapeAfter a b).trans (h rfl)
    cases htag : tag? a with
    | none =>
      rw [escapeAfter_open_of_no_tag htag, List.append_assoc, piecesAfter_replicate,
        List.cons_append, piecesAfter_of_no_tag hc fun _ => hread.trans htag]
    | some inside =>
      rw [escapeAfter_open_of_tag htag, List.append_assoc, piecesAfter_replicate,
        List.cons_append, piecesAfter_odd (hread.trans htag)]
  · rw [escapeAfter_of_ne hc hopen, List.append_assoc, piecesAfter_replicate, List.cons_append,
      piecesAfter_of_no_tag hc fun hc => absurd hc hopen]

/-- The end of a text does not end in what the text does not end in. -/
private theorem getLast?_ne_of_append_cons {x : List Char} {e : Char}
    (h : (x ++ c :: a).getLast? ≠ some e) : a.getLast? ≠ some e := by
  intro hlast
  apply h
  rw [List.getLast?_append, List.getLast?_cons, hlast]
  rfl

/-- A text that follows some backslashes is escaped together with these, and shown as it is where no
tag runs on into what comes after. -/
theorem pieces_escapeAfter_run (hjoined : joinedTag? a b = none)
    (hend : (List.replicate k '\\' ++ a).getLast? ≠ some '\\') :
    pieces (escapeAfter k a ++ b) =
      (List.replicate k '\\' ++ a).map Piece.char ++ pieces b := by
  -- The backslashes met so far wait for the next character. What comes after the text matters at a
  -- bracket only, and there to the last one only.
  induction a generalizing k with
  | nil =>
    cases k with
    | zero => rfl
    | succ k => simp [List.getLast?_replicate] at hend
  | cons c a ih =>
    by_cases hc : c = '\\'
    · subst hc
      rw [joinedTag?_cons_of_ne (by decide)] at hjoined
      rw [← replicate_succ_append] at hend ⊢
      rw [escapeAfter_backslash, ih hjoined hend]
    · have hrest : joinedTag? a b = none ∧ (c = '[' → tag? (a ++ b) = tag? a) := by
        by_cases hopen : c = '['
        · subst hopen
          by_cases hmem : '[' ∈ a ∨ ']' ∈ a
          · rw [joinedTag?_open_of_mem hmem] at hjoined
            exact ⟨hjoined, fun _ => tag?_append_of_mem hmem b⟩
          · rw [not_or] at hmem
            rw [joinedTag?_open_of_notMem hmem.1 hmem.2] at hjoined
            refine ⟨?_, fun _ => hjoined.trans (tag?_eq_none_of_notMem hmem.2).symm⟩
            rw [joinedTag?, openBracket?_eq_none_of_notMem hmem.1, Option.bind_none]
        · rw [joinedTag?_cons_of_ne hopen] at hjoined
          exact ⟨hjoined, fun hc => absurd hc hopen⟩
      rw [pieces_escapeAfter_cons hc hrest.2, ih hrest.1 (getLast?_ne_of_append_cons hend)]
      simp

/-- Escaped text is shown as it is where no tag runs on into what comes after. -/
theorem pieces_escapeAfter (hjoined : joinedTag? a b = none) (ha : a.getLast? ≠ some '\\') :
    pieces (escapeAfter 0 a ++ b) = a.map Piece.char ++ pieces b :=
  pieces_escapeAfter_run hjoined ha

/-- A bracket that is left open becomes a tag if what comes after closes it, since an even number of
backslashes before it does not keep it from being read. -/
theorem pieces_escapeAfter_of_joined (hpaired : IsPaired k a)
    (hjoined : joinedTag? a b = some inside) :
    ∃ shown : List Char, pieces (escapeAfter k a ++ b) =
      shown.map Piece.char ++ .tag inside :: piecesAfter 0 true b := by
  induction a generalizing k with
  | nil => cases hjoined
  | cons c a ih =>
    by_cases hc : c = '\\'
    · subst hc
      rw [isPaired_backslash] at hpaired
      rw [joinedTag?_cons_of_ne (by decide)] at hjoined
      rw [escapeAfter_backslash]
      exact ih hpaired hjoined
    by_cases hopen : c = '['
    · subst hopen
      obtain ⟨heven, hpaired⟩ := (isPaired_open k a).mp hpaired
      by_cases hmem : '[' ∈ a ∨ ']' ∈ a
      · rw [joinedTag?_open_of_mem hmem] at hjoined
        obtain ⟨shown, hshown⟩ := ih hpaired hjoined
        refine ⟨List.replicate k '\\' ++ ['['] ++ shown, ?_⟩
        rw [pieces_escapeAfter_cons hc fun _ => tag?_append_of_mem hmem b, hshown]
        simp
      · rw [not_or] at hmem
        rw [joinedTag?_open_of_notMem hmem.1 hmem.2] at hjoined
        refine ⟨List.replicate (k / 2) '\\', ?_⟩
        rw [escapeAfter_open_of_no_tag (tag?_eq_none_of_notMem hmem.2),
          escapeAfter_of_notMem hmem.1, List.append_assoc, piecesAfter_replicate,
          List.replicate_zero, List.nil_append, List.cons_append,
          piecesAfter_even hjoined heven, piecesAfter_append_of_notMem hmem.2]
    · rw [isPaired_of_ne hc hopen] at hpaired
      rw [joinedTag?_cons_of_ne hopen] at hjoined
      obtain ⟨shown, hshown⟩ := ih hpaired hjoined
      refine ⟨List.replicate k '\\' ++ [c] ++ shown, ?_⟩
      rw [pieces_escapeAfter_cons hc fun hc => absurd hc hopen, hshown]
      simp

/-- Where two escaped texts stand one after the other before a bracket, one tag is read at most: the
one that opens in the first text and is closed in the second. Without it both are shown as they
are. -/
theorem exists_pieces_escapeAfter (hpaired : IsPaired 0 a) (ha : a.getLast? ≠ some '\\')
    (hb : b.getLast? ≠ some '\\') (t : List Char) :
    ∃ before after : List Char, pieces (escapeAfter 0 a ++ (escapeAfter 0 b ++ '[' :: t)) =
        before.map Piece.char ++ (joinedTag? a b).toList.map Piece.tag ++ after.map Piece.char ++
          pieces ('[' :: t) ∧
      (joinedTag? a b = none → before ++ after = a ++ b) := by
  cases hjoined : joinedTag? a b with
  | none =>
    have hread : joinedTag? a (escapeAfter 0 b ++ '[' :: t) = none := by
      rw [joinedTag?_escapeAfter, hjoined]
    refine ⟨a, b, ?_, fun _ => rfl⟩
    rw [pieces_escapeAfter hread ha, pieces_escapeAfter (joinedTag?_open b t) hb]
    simp
  | some inside =>
    have hread : joinedTag? a (escapeAfter 0 b ++ '[' :: t) = some inside := by
      rw [joinedTag?_escapeAfter, hjoined]
    obtain ⟨shown, hshown⟩ := pieces_escapeAfter_of_joined hpaired hread
    -- The tag swallows the second text up to the closing bracket, the rest is escaped by itself.
    obtain ⟨x, hx⟩ := exists_untilClose?_of_joinedTag? hjoined
    obtain ⟨rest, rfl, hopen, hclose⟩ := exists_of_untilClose?_eq_some hx
    refine ⟨shown, rest, ?_, nofun⟩
    rw [hshown, escapeAfter_append_close hopen, List.append_assoc, List.cons_append,
      piecesAfter_close hclose,
      pieces_escapeAfter (joinedTag?_open rest t) (getLast?_ne_of_append_cons hb)]
    simp

end Rearrange.Markup
