import Mathlib.Data.List.InsertIdx
import Mathlib.Data.List.Perm.Basic
import Mathlib.Logic.Relation
import Rearrange.Proofs.Tree.Place

namespace Rearrange

/-- The elements with the one at an index taken out and put back at another. -/
def moveElement {α : Type} (l : List α) (source target : Nat) : List α :=
  match l[source]? with
  | some a => (l.eraseIdx source).insertIdx target a
  | none => l

namespace Tree

variable {α : Type}

/-- The tree with its children in another order. -/
def withMoved (t : Tree α) (source target : Nat) : Tree α :=
  match t with
  | literal a l => literal a l
  | branch a s cs => branch a s (moveElement cs source target)

/-- All placements of the child at an index, ordered by the position it gets. -/
def placements (t : Tree α) (source : Nat) : List (Tree α) :=
  (List.range t.children.length).map (t.withMoved source)

end Tree

section Elements

variable {α : Type} {l : List α} {source target : Nat}

/-- An element that is in the list is taken out and put back at its target. -/
theorem moveElement_eq (hsource : source < l.length) :
    moveElement l source target = (l.eraseIdx source).insertIdx target l[source] := by
  rw [moveElement, List.getElem?_eq_getElem hsource]

/-- There is nothing to move past the end of the list. -/
private theorem moveElement_of_length_le (hsource : l.length ≤ source) :
    moveElement l source target = l := by
  rw [moveElement, List.getElem?_eq_none hsource]

/-- A move changes the order of the elements and nothing else. -/
theorem moveElement_perm (source : Nat) (htarget : target < l.length) :
    (moveElement l source target).Perm l := by
  by_cases hsource : source < l.length
  · have hroom : target ≤ (l.eraseIdx source).length := by
      rw [List.length_eraseIdx_of_lt hsource]
      omega
    rw [moveElement_eq hsource]
    exact (List.perm_insertIdx _ _ hroom).trans (List.getElem_cons_eraseIdx_perm hsource)
  · rw [moveElement_of_length_le (Nat.le_of_not_lt hsource)]

/-- Elements may be replaced before one is moved, or afterwards. -/
theorem map_moveElement {β : Type} (f : α → β) (l : List α) (source target : Nat) :
    (moveElement l source target).map f = moveElement (l.map f) source target := by
  by_cases hsource : source < l.length
  · have hmapped : source < (l.map f).length := by rwa [List.length_map]
    rw [moveElement_eq hsource, moveElement_eq hmapped, List.map_insertIdx, List.eraseIdx_map,
      List.getElem_map]
  · have hmapped : (l.map f).length ≤ source := by
      rw [List.length_map]
      exact Nat.le_of_not_lt hsource
    rw [moveElement_of_length_le (Nat.le_of_not_lt hsource), moveElement_of_length_le hmapped]

/-- The moved element is found where it was put. -/
theorem getElem?_moveElement (hsource : source < l.length) (htarget : target < l.length) :
    (moveElement l source target)[target]? = some l[source] := by
  have hroom : target ≤ (l.eraseIdx source).length := by
    rw [List.length_eraseIdx_of_lt hsource]
    omega
  rw [moveElement_eq hsource, List.getElem?_insertIdx_self, if_pos hroom]

/-- Where an element is put first makes no difference to where it is put then. -/
theorem moveElement_moveElement (hsource : source < l.length) (htarget : target < l.length)
    (final : Nat) :
    moveElement (moveElement l source target) target final = moveElement l source final := by
  have hfound := getElem?_moveElement hsource htarget
  rw [moveElement, hfound, moveElement_eq hsource, moveElement_eq hsource]
  simp only [List.eraseIdx_insertIdx_self]

/-- An element that is moved to its own place leaves the list as it is. -/
theorem moveElement_self (l : List α) (source : Nat) : moveElement l source source = l := by
  by_cases hsource : source < l.length
  · rw [moveElement_eq hsource, List.insertIdx_eraseIdx_getElem hsource]
  · exact moveElement_of_length_le (Nat.le_of_not_lt hsource)

/-- Moving an element below the head of a list. -/
private theorem moveElement_cons (a : α) (l : List α) (source target : Nat) :
    moveElement (a :: l) (source + 1) (target + 1) = a :: moveElement l source target := by
  rw [moveElement, moveElement, List.getElem?_cons_succ]
  cases l[source]? with
  | none => rfl
  | some b => simp

/-- The second list is the first with one element moved. -/
def MovedElement (l m : List α) : Prop :=
  ∃ source target, source < l.length ∧ target < l.length ∧ m = moveElement l source target

/-- Moving elements one after the other leads to every order. -/
theorem reflTransGen_movedElement {l m : List α} (h : l.Perm m) :
    Relation.ReflTransGen MovedElement l m := by
  -- An order is reached by exchanging neighbours, and to exchange two is to move the first.
  induction h with
  | nil => exact .refl
  | cons a h ih =>
    refine Relation.ReflTransGen.lift (a :: ·) ?_ _ _ ih
    rintro l _ ⟨source, target, hsource, htarget, rfl⟩
    exact ⟨source + 1, target + 1, Nat.succ_lt_succ hsource, Nat.succ_lt_succ htarget,
      (moveElement_cons a l source target).symm⟩
  | swap a b l =>
    refine .single ⟨0, 1, ?_, ?_, rfl⟩
    · exact Nat.zero_lt_succ _
    · exact Nat.succ_lt_succ (Nat.zero_lt_succ _)
  | trans _ _ ih₁ ih₂ => exact ih₁.trans ih₂

end Elements

namespace Tree

variable {α β : Type}

theorem children_withMoved (t : Tree α) (source target : Nat) :
    (t.withMoved source target).children = moveElement t.children source target := by
  cases t <;> rfl

/-- A move keeps the children and changes their order. -/
theorem children_withMoved_perm {t : Tree α} (source : Nat) {target : Nat}
    (htarget : target < t.children.length) :
    (t.withMoved source target).children.Perm t.children := by
  rw [children_withMoved]
  exact moveElement_perm source htarget

@[simp] theorem kind_withMoved (t : Tree α) (source target : Nat) :
    (t.withMoved source target).kind = t.kind := by
  cases t <;> rfl

@[simp] theorem tag_withMoved (t : Tree α) (source target : Nat) :
    (t.withMoved source target).tag = t.tag := by
  cases t <;> rfl

/-- Tags may be replaced before a child is moved, or afterwards. -/
theorem map_withMoved (f : α → β) (t : Tree α) (source target : Nat) :
    (t.withMoved source target).map f = (t.map f).withMoved source target := by
  cases t with
  | literal a l => rw [withMoved, map_literal, withMoved]
  | branch a s cs => rw [withMoved, map_branch, map_branch, withMoved, map_moveElement]

/-- A child that is moved twice is where the second move puts it. -/
theorem withMoved_withMoved {t : Tree α} {source target : Nat}
    (hsource : source < t.children.length) (htarget : target < t.children.length) (final : Nat) :
    (t.withMoved source target).withMoved target final = t.withMoved source final := by
  cases t with
  | literal a l => rfl
  | branch a s cs =>
    rw [children] at hsource htarget
    rw [withMoved, withMoved, withMoved, moveElement_moveElement hsource htarget]

/-- A child that is moved to its own place leaves the tree as it is. -/
theorem withMoved_self (t : Tree α) (source : Nat) : t.withMoved source source = t := by
  cases t with
  | literal a l => rfl
  | branch a s cs => rw [withMoved, moveElement_self]

theorem length_placements_map (f : α → β) (t : Tree α) (source : Nat) :
    ((t.map f).placements source).length = t.children.length := by
  rw [placements, List.length_map, List.length_range, children_map, List.length_map]

/-- The placement at an index has the child moved to this index. -/
theorem eq_withMoved_of_getElem?_placements {t u : Tree α} {source target : Nat}
    (h : (t.placements source)[target]? = some u) : u = t.withMoved source target := by
  rw [placements, List.getElem?_map, Option.map_eq_some_iff] at h
  obtain ⟨position, hposition, rfl⟩ := h
  obtain ⟨hlt, rfl⟩ := List.getElem?_eq_some_iff.mp hposition
  rw [List.getElem_range]

/-- A placement that is put into a tree shows the moved child at its position. -/
theorem map_tag_subtreeAt?_replaceAt {t p : Tree α} {a : α} {place : List Nat} {source target : Nat}
    (hp : t.subtreeAt? place = some p) (ha : (p.children.map tag)[source]? = some a)
    (htarget : target < p.children.length) :
    ((replaceAt (p.withMoved source target) t place).subtreeAt? (place ++ [target])).map tag =
      some a := by
  rw [List.getElem?_map, Option.map_eq_some_iff] at ha
  obtain ⟨c, hc, rfl⟩ := ha
  obtain ⟨hsource, rfl⟩ := List.getElem?_eq_some_iff.mp hc
  rw [subtreeAt?_concat (subtreeAt?_replaceAt hp _), children_withMoved,
    getElem?_moveElement hsource htarget, Option.map_some]

/-- A placement rearranges the tree. -/
theorem rearranged_withMoved (t : Tree α) (source : Nat) {target : Nat}
    (htarget : target < t.children.length) : t.Rearranged (t.withMoved source target) := by
  cases t with
  | literal a l => exact .refl _
  | branch a s cs => exact .perm a s (moveElement_perm source htarget).symm

/-- The second tree is the first with one child of a node moved. -/
def Moved (t u : Tree α) : Prop :=
  ∃ place p source target, t.subtreeAt? place = some p ∧ source < p.children.length ∧
    target < p.children.length ∧ u = replaceAt (p.withMoved source target) t place

theorem Moved.branch {cs ds : List (Tree α)} (h : MovedElement cs ds) (a : α) (s : Shape) :
    Moved (.branch a s cs) (.branch a s ds) := by
  obtain ⟨source, target, hsource, htarget, rfl⟩ := h
  exact ⟨[], .branch a s cs, source, target, subtreeAt?_nil _, hsource, htarget,
    (replaceAt_nil _ _).symm⟩

/-- A move inside one child is a move inside the tree. -/
theorem Moved.child {c d : Tree α} (h : Moved c d) (a : α) (s : Shape)
    (before after : List (Tree α)) :
    Moved (.branch a s (before ++ c :: after)) (.branch a s (before ++ d :: after)) := by
  obtain ⟨place, p, source, target, hp, hsource, htarget, rfl⟩ := h
  refine ⟨before.length :: place, p, source, target, ?_, hsource, htarget, ?_⟩
  · refine subtreeAt?_cons_eq_some_iff.mpr ⟨c, ?_, hp⟩
    rw [children, List.getElem?_append_right (Nat.le_refl _), Nat.sub_self,
      List.getElem?_cons_zero]
  · rw [replaceAt, List.modify_eq_take_cons_drop (by simp)]
    simp

/-- A rearrangement comes of moving children one after the other. -/
theorem Rearranged.reflTransGen_moved {t u : Tree α} (h : t.Rearranged u) :
    Relation.ReflTransGen Moved t u := by
  induction h with
  | refl t => exact .refl
  | trans _ _ ihtu ihuv => exact ihtu.trans ihuv
  | perm a s h =>
    exact Relation.ReflTransGen.lift (Tree.branch a s)
      (fun _ _ hmoved => Moved.branch hmoved a s) _ _ (reflTransGen_movedElement h)
  | child a s before after _ ih =>
    exact Relation.ReflTransGen.lift (fun c => Tree.branch a s (before ++ c :: after))
      (fun _ _ hmoved => Moved.child hmoved a s before after) _ _ ih

/-- The second tree is the first with the child that a path leads to taken out from among its
siblings and put back at a position. -/
def MovedTo (path : List Int) (position : Int) (t t' : Tree α) : Prop :=
  ∃ (place : List Nat) (index target : Nat) (a : α) (s : Shape) (cs : List (Tree α)) (c : Tree α),
    path = (place ++ [index]).map Int.ofNat ∧ position = target ∧
      t.subtreeAt? place = some (branch a s cs) ∧ cs[index]? = some c ∧ target < cs.length ∧
      t' = replaceAt (branch a s ((cs.eraseIdx index).insertIdx target c)) t place

/-- A path and a position do not say how to move a child: the path leads to the root or to no node
of the tree, or the position is none among the children of the node above. -/
def Misplaced (path : List Int) (position : Int) (t : Tree α) : Prop :=
  path = [] ∨ (∀ place u, t.subtreeAt? place = some u → path ≠ place.map Int.ofNat) ∨
    ∃ (place : List Nat) (index : Nat) (around : Tree α), t.subtreeAt? place = some around ∧
      path = (place ++ [index]).map Int.ofNat ∧
      ¬ (0 ≤ position ∧ position < around.children.length)

/-- A path and a position are refused, or there is a tree they lead to. -/
theorem misplaced_or_exists_movedTo (path : List Int) (position : Int) (t : Tree α) :
    t.Misplaced path position ∨ ∃ t', t.MovedTo path position t' := by
  cases hfollow : t.followFrom 0 path with
  | error e =>
    refine .inl (.inr (.inl fun place u hu hpath => ?_))
    rw [followFrom_eq_ok_iff.mpr ⟨place, hpath, hu⟩] at hfollow
    cases hfollow
  | ok c =>
    obtain ⟨place, rfl, hc⟩ := followFrom_eq_ok_iff.mp hfollow
    obtain rfl | ⟨place, index, rfl⟩ := List.eq_nil_or_concat place
    · exact .inl (.inl rfl)
    · rw [List.concat_eq_append] at hc ⊢
      obtain ⟨around, haround, hindex⟩ := exists_subtreeAt?_of_concat hc
      by_cases hposition : 0 ≤ position ∧ position < around.children.length
      · cases around with
        | literal a l => cases hindex
        | branch a s cs =>
          obtain ⟨target, rfl⟩ := Int.eq_ofNat_of_zero_le hposition.1
          exact .inr ⟨_, place, index, target, a, s, cs, c, rfl, rfl, haround, hindex,
            Int.ofNat_lt.mp hposition.2, rfl⟩
      · exact .inl (.inr (.inr ⟨place, index, around, haround, rfl, hposition⟩))

end Tree

end Rearrange
