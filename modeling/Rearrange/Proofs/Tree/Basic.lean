import Mathlib.Data.List.Basic
import Rearrange.Tree.Flat
import Rearrange.Tree.Flatten

namespace Rearrange.Tree

variable {α β γ : Type}

/-- Induction over trees, with one hypothesis for all children of a branch. -/
@[elab_as_elim, induction_eliminator]
theorem induction {motive : Tree α → Prop} (literal : ∀ a l, motive (.literal a l))
    (branch : ∀ a s cs, (∀ c ∈ cs, motive c) → motive (.branch a s cs)) (t : Tree α) :
    motive t := by
  refine @Tree.rec α motive (fun cs => ∀ c ∈ cs, motive c)
    literal branch ?_ ?_ t
  · intro c hc
    cases hc
  · intro c cs hc hcs d hd
    obtain rfl | hd := List.mem_cons.mp hd
    · exact hc
    · exact hcs d hd

@[simp] theorem map_literal (f : α → β) (a : α) (l : Literal) :
    (literal a l).map f = literal (f a) l := by
  rw [map]

/-- Tags are replaced in all children of a branch. -/
@[simp] theorem map_branch (f : α → β) (a : α) (s : Shape) (cs : List (Tree α)) :
    (branch a s cs).map f = branch (f a) s (cs.map (map f)) := by
  rw [map, mapAll_eq_map]

@[simp] theorem tags_literal (a : α) (l : Literal) : (literal a l).tags = [a] := by
  rw [tags]

/-- A walk meets the top first, then the nodes below the children in order. -/
@[simp] theorem tags_branch (a : α) (s : Shape) (cs : List (Tree α)) :
    (branch a s cs).tags = a :: cs.flatMap tags := by
  rw [tags, tagsAll_eq_flatMap]

/-- The kind of a node does not depend on tags. -/
@[simp] theorem kind_map (f : α → β) (t : Tree α) : (t.map f).kind = t.kind := by
  cases t <;> simp [kind]

@[simp] theorem tag_map (f : α → β) (t : Tree α) : (t.map f).tag = f t.tag := by
  cases t <;> simp [tag]

/-- A walk starts at the top. -/
theorem tag_mem_tags (t : Tree α) : t.tag ∈ t.tags := by
  cases t <;> simp [tag]

/-- Replacing tags twice is replacing them once. -/
theorem map_map (f : α → β) (g : β → γ) (t : Tree α) :
    (t.map f).map g = t.map fun a => g (f a) := by
  induction t with
  | literal a l => simp
  | branch a s cs ih =>
    simp only [map_branch, List.map_map, branch.injEq, true_and]
    exact List.map_congr_left ih

/-- Only the tags that occur count for what replaces them. -/
theorem map_congr_left {f g : α → β} {t : Tree α} (h : ∀ a ∈ t.tags, f a = g a) :
    t.map f = t.map g := by
  induction t with
  | literal a l => simp [h a (by simp)]
  | branch a s cs ih =>
    simp only [tags_branch, List.mem_cons, List.mem_flatMap] at h
    rw [map_branch, map_branch, h a (.inl rfl)]
    congr 1
    exact List.map_congr_left fun c hc => ih c hc fun b hb => h b (.inr ⟨c, hc, hb⟩)

/-- Tags are replaced in the order of the walk. -/
theorem tags_map (f : α → β) (t : Tree α) : (t.map f).tags = t.tags.map f := by
  induction t with
  | literal a l => simp
  | branch a s cs ih =>
    simp only [map_branch, tags_branch, List.map_cons, List.flatMap_map, List.map_flatMap]
    rw [List.flatMap_congr ih]

/-- Replacing tags keeps the number of nodes. -/
theorem size_map (f : α → β) (t : Tree α) : (t.map f).size = t.size := by
  rw [← length_tags, tags_map, List.length_map, length_tags]

/-- Tags that are replaced by themselves stay. -/
theorem map_id (t : Tree α) : t.map id = t := by
  induction t with
  | literal a l => simp
  | branch a s cs ih =>
    rw [map_branch, id_eq, List.map_congr_left ih, List.map_id']

/-- An expression has no tags to be erased. -/
@[simp] theorem erase_eq (t : Expr) : t.erase = t :=
  map_id t

@[simp] theorem erase_literal (a : α) (l : Literal) : (literal a l).erase = literal () l :=
  map_literal _ a l

@[simp] theorem erase_branch (a : α) (s : Shape) (cs : List (Tree α)) :
    (branch a s cs).erase = branch () s (cs.map erase) :=
  map_branch _ a s cs

/-- What tags are replaced by does not matter once they are erased. -/
theorem erase_map (f : α → β) (t : Tree α) : (t.map f).erase = t.erase := by
  rw [erase, erase, map_map]

/-- A tree is known from its expression and from its tags in their order. -/
theorem eq_of_erase_eq_of_tags_eq {t u : Tree α} (herase : t.erase = u.erase)
    (htags : t.tags = u.tags) : t = u := by
  induction t generalizing u with
  | literal a l =>
    cases u with
    | literal b m => simp_all
    | branch b r ds => simp at herase
  | branch a s cs ih =>
    cases u with
    | literal b m => simp at herase
    | branch b r ds =>
      simp only [erase_branch, branch.injEq, true_and] at herase
      simp only [tags_branch, List.cons.injEq] at htags
      obtain ⟨rfl, hchildren⟩ := herase
      obtain ⟨rfl, htags⟩ := htags
      congr 1
      induction cs generalizing ds with
      | nil => exact (List.map_eq_nil_iff.mp hchildren.symm).symm
      | cons c cs ihcs =>
        obtain ⟨d, ds, rfl, hd, hds⟩ := List.map_eq_cons_iff.mp hchildren.symm
        obtain ⟨hc, hcs⟩ := List.forall_mem_cons.mp ih
        have hlength : c.tags.length = d.tags.length := by
          rw [length_tags, length_tags, ← size_map (fun _ => ()) c, ← erase, ← hd, erase, size_map]
        rw [List.flatMap_cons, List.flatMap_cons] at htags
        obtain ⟨hfirst, hrest⟩ := List.append_inj htags hlength
        exact congrArg₂ List.cons (hc hd.symm hfirst) (ihcs hcs ds hds.symm hrest)

@[simp] theorem flat_literal (a : α) (l : Literal) : (literal a l).flat = l.text := by
  rw [flat]

/-- A group with one child is its text in parentheses. -/
@[simp] theorem flat_group (a : α) (c : Tree α) (cs : List (Tree α)) :
    (branch a .group (c :: cs)).flat = '(' :: c.flat ++ [')'] := by
  rw [flat, flatAll, List.headD_cons]

/-- The text of a chain is that of its operands with the sign between them. -/
@[simp] theorem flat_chain (a : α) (op : Operator) (cs : List (Tree α)) :
    (branch a (.chain op) cs).flat = [op.symbol].intercalate (cs.map flat) := by
  rw [flat, flatAll_eq_map]

/-- The flat text does not depend on tags. -/
theorem flat_map (f : α → β) (t : Tree α) : (t.map f).flat = t.flat := by
  induction t with
  | literal a l => simp
  | branch a s cs ih =>
    cases s with
    | group =>
      cases cs with
      | nil => rfl
      | cons c cs => simp [ih c List.mem_cons_self]
    | chain op =>
      rw [map_branch, flat_chain, flat_chain, List.map_map]
      exact congrArg _ (List.map_congr_left ih)

@[simp] theorem flat_erase (t : Tree α) : t.erase.flat = t.flat :=
  flat_map _ t

/-- The lines of several trees stand one below the other. -/
theorem indentedAll_eq_flatMap (depth : Int) (cs : List (Tree α)) :
    indentedAll depth cs = cs.flatMap (indented depth) := by
  induction cs with
  | nil => rfl
  | cons c cs ih => simp [indentedAll, ih]

/-- The indented text does not depend on tags. -/
theorem indented_map (f : α → β) (t : Tree α) (depth : Int) :
    (t.map f).indented depth = t.indented depth := by
  induction t generalizing depth with
  | literal a l => rw [map_literal, indented, indented]
  | branch a s cs ih =>
    have hmarker : (branch (f a) s (cs.map (map f))).marker = (branch a s cs).marker := by
      cases s <;> rfl
    rw [map_branch, indented, indented, hmarker, indentedAll_eq_flatMap, indentedAll_eq_flatMap,
      List.flatMap_map, List.flatMap_congr fun c hc => ih c hc (depth + 1)]

end Rearrange.Tree
