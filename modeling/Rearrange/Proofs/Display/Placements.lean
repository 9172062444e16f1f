import Rearrange.Display
import Rearrange.Proofs.Tree.Characters
import Rearrange.Proofs.Tree.Moved

namespace Rearrange

private theorem slice_zero_natCast {α : Type} (l : List α) (n : Nat) : slice l 0 n = l.take n := by
  have hstart : sliceBound l.length 0 = 0 := Nat.zero_min l.length
  have hstop : sliceBound l.length n = min n l.length := by
    rw [sliceBound, if_neg (Int.not_lt.mpr (Int.natCast_nonneg n)), Int.toNat_natCast]
  rw [slice, hstart, hstop, List.drop_zero, Nat.sub_zero, ← List.take_eq_take_min]

namespace Display

/-- The mark at the row of the current placement. -/
def currentMark : List Char :=
  ' ' :: Markup.styled "yellow" "(current)".toList

/-- The last cell of a row ends with the mark of the current placement. -/
def IsMarked (row : List (List Char)) : Prop :=
  ∃ text, row.getLast? = some (text ++ currentMark)

/-- The flat text of a node after a child of it has been taken out and put back at a position. -/
def placedText (s : Shape) (cs : List Expr) (index : Nat) (c : Expr) (position : Nat) : List Char :=
  (Tree.branch () s ((cs.eraseIdx index).insertIdx position c)).flat

/-- Rows and what comes below them show the first placements of the child of a node at an index. The
rows are in order, and each has its number, the position and the flat text of the placement. The
child's own index is marked if it is among them, and shows the flat text of the node. -/
structure ShowsPlacements (s : Shape) (cs : List Expr) (index : Nat) (c : Expr) (limit : Nat)
    (rows : List (List (List Char))) (below : List Block) : Prop where
  length_eq : rows.length = min cs.length limit
  row_eq : ∀ i, i < rows.length → ∃ mark, (mark = [] ∨ mark = currentMark) ∧
    rows[i]? = some [digits i, digits i, placedText s cs index c i ++ mark]
  isMarked_iff : ∀ i row, rows[i]? = some row → (IsMarked row ↔ i = index)
  exists_isMarked_iff : (∃ row ∈ rows, IsMarked row) ↔ index < limit
  current_eq : index < limit → rows[index]? =
    some [digits index, digits index, (Tree.branch () s cs).flat ++ currentMark]
  below_eq : ∃ left, rows.length + left = cs.length ∧ below = if limit < cs.length then
    [.line ("  ... and ".toList ++ digits left ++ " more candidates".toList)] else []

variable {s : Shape} {cs : List Expr} {index : Nat} {c : Expr}

/-- Putting a child back where it was gives the node. -/
theorem placedText_self (hc : cs[index]? = some c) :
    placedText s cs index c index = (Tree.branch () s cs).flat := by
  obtain ⟨hlt, rfl⟩ := List.getElem?_eq_some_iff.mp hc
  rw [placedText, List.insertIdx_eraseIdx_getElem hlt]

/-- No flat text ends with the mark of the current placement. -/
theorem flat_ne_append_currentMark {α : Type} (t : Tree α) (text : List Char) :
    t.flat ≠ text ++ currentMark := by
  intro h
  have hblank : ' ' ∈ t.flat := by
    rw [h]
    exact List.mem_append_right text List.mem_cons_self
  exact absurd (Tree.isExpressionChar_of_mem_flat hblank) (by decide)

/-- The row with a number, where the child at an index is current. -/
def placementRow (s : Shape) (cs : List Expr) (index : Nat) (c : Expr) (i : Nat) :
    List (List Char) :=
  [digits i, digits i, placedText s cs index c i ++ if i = index then currentMark else []]

/-- The row of the node's own place is marked, and no other is. -/
theorem isMarked_placementRow_iff {i : Nat} :
    IsMarked (placementRow s cs index c i) ↔ i = index := by
  constructor
  · rintro ⟨text, htext⟩
    by_contra hne
    rw [placementRow, if_neg hne, List.append_nil] at htext
    exact flat_ne_append_currentMark _ text (Option.some.inj htext)
  · rintro rfl
    exact ⟨placedText s cs i c i, by rw [placementRow, if_pos rfl]; rfl⟩

/-- One row for each placement up to the limit shows the placements. -/
theorem showsPlacements_map_range (hc : cs[index]? = some c) (limit : Nat) :
    ShowsPlacements s cs index c limit
      ((List.range (min cs.length limit)).map (placementRow s cs index c))
      (if limit < cs.length then
        [.line ("  ... and ".toList ++ digits (cs.length - limit : Nat) ++
          " more candidates".toList)]
      else []) := by
  have hindex : index < cs.length := (List.getElem?_eq_some_iff.mp hc).1
  have hrow : ∀ i, i < min cs.length limit →
      ((List.range (min cs.length limit)).map (placementRow s cs index c))[i]? =
        some (placementRow s cs index c i) := fun i hi => by
    rw [List.getElem?_map, List.getElem?_range hi, Option.map_some]
  constructor
  · rw [List.length_map, List.length_range]
  · intro i hi
    rw [List.length_map, List.length_range] at hi
    refine ⟨if i = index then currentMark else [], ?_, hrow i hi⟩
    split
    · exact .inr rfl
    · exact .inl rfl
  · intro i row h
    have hi := (List.getElem?_eq_some_iff.mp h).1
    rw [List.length_map, List.length_range] at hi
    obtain rfl := Option.some.inj ((hrow i hi).symm.trans h)
    exact isMarked_placementRow_iff
  · simp only [List.mem_map, List.mem_range, exists_exists_and_eq_and, isMarked_placementRow_iff,
      exists_eq_right, Nat.lt_min, hindex, true_and]
  · intro hlimit
    rw [hrow index (Nat.lt_min.mpr ⟨hindex, hlimit⟩), placementRow, if_pos rfl, placedText_self hc]
  · refine ⟨cs.length - limit, ?_, rfl⟩
    rw [List.length_map, List.length_range]
    omega

/-- The table of candidates, with the remainder line written out. -/
theorem candidates_eq (focused : List Char) (xs : List Placement) (limit : Int)
    (current : Option Int) :
    candidates focused xs limit current =
      .table ("Placements of ".toList ++ focused) candidateColumns
          ((slice xs 0 limit).zipIdx.map fun x => candidateRow current x.1 x.2) ::
        if limit < xs.length then
          [.line ("  ... and ".toList ++ digits (xs.length - limit) ++ " more candidates".toList)]
        else [] :=
  rfl

/-- What is shown of candidates depends on their flat texts and positions only. -/
theorem exists_candidates_eq (hc : cs[index]? = some c) {xs : List Placement}
    (hxs : xs.map (fun x => (x.flat, x.position)) =
      (List.range cs.length).map fun position => (placedText s cs index c position, position))
    (focused : List Char) (limit : Nat) :
    ∃ rows below, candidates focused xs limit (some index) =
        .table ("Placements of ".toList ++ focused) candidateColumns rows :: below ∧
      ShowsPlacements s cs index c limit rows below := by
  have hlength : xs.length = cs.length := by
    have hlengths := congrArg List.length hxs
    rwa [List.length_map, List.length_map, List.length_range] at hlengths
  have hrows : ((slice xs 0 limit).zipIdx.map fun x => candidateRow (some index) x.1 x.2) =
      (List.range (min cs.length limit)).map (placementRow s cs index c) := by
    rw [slice_zero_natCast]
    refine List.ext_getElem (by simp [hlength, Nat.min_comm]) fun i hi _ => ?_
    have hlt : i < cs.length := by
      simp only [List.length_map, List.length_zipIdx, List.length_take, Nat.lt_min] at hi
      omega
    have hget := congrArg (·[i]?) hxs
    simp only [List.getElem?_map, List.getElem?_range hlt, List.getElem?_eq_getElem (hlength ▸ hlt),
      Option.map_some, Option.some.injEq, Prod.mk.injEq] at hget
    simp only [List.getElem_map, List.getElem_zipIdx, List.getElem_take, List.getElem_range,
      candidateRow, placementRow, hget, Nat.zero_add, Option.some.injEq, Int.natCast_inj,
      eq_comm (a := index)]
    rfl
  refine ⟨_, _, candidates_eq focused xs limit (some index), ?_⟩
  have hshows := showsPlacements_map_range (s := s) hc limit
  rw [hrows]
  convert hshows using 1
  simp only [hlength, Int.ofNat_lt]
  split
  · next hlt => rw [Int.ofNat_sub (Nat.le_of_lt hlt)]
  · rfl

end Display

end Rearrange
