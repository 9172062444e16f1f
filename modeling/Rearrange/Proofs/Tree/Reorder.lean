import Rearrange.Proofs.Tree.Moved

namespace Rearrange.Tree

variable {α : Type}

section Reorder

variable [DecidableEq α] {a b : α} {source target : Nat}

mutual
/-- The tree with a child put elsewhere below the branches that carry a tag. -/
def reorder (a : α) (source target : Nat) : Tree α → Tree α
  | literal b l => literal b l
  | branch b s cs =>
    let ds := reorderAll a source target cs
    branch b s (if b = a then moveElement ds source target else ds)

/-- The trees with a child put elsewhere below the branches that carry a tag. -/
def reorderAll (a : α) (source target : Nat) : List (Tree α) → List (Tree α)
  | [] => []
  | c :: cs => c.reorder a source target :: reorderAll a source target cs
end

private theorem reorderAll_eq_map (a : α) (source target : Nat) (cs : List (Tree α)) :
    reorderAll a source target cs = cs.map (reorder a source target) := by
  induction cs with
  | nil => rfl
  | cons c cs ih => simp [reorderAll, ih]

/-- The children of the node with the tag change their order. -/
theorem reorder_branch_self (s : Shape) (cs : List (Tree α)) :
    (branch a s cs).reorder a source target =
      branch a s (moveElement (cs.map (reorder a source target)) source target) := by
  rw [reorder, if_pos rfl, reorderAll_eq_map]

/-- Any other branch keeps the order of its children. -/
theorem reorder_branch_of_ne (hb : b ≠ a) (s : Shape) (cs : List (Tree α)) :
    (branch b s cs).reorder a source target = branch b s (cs.map (reorder a source target)) := by
  rw [reorder, if_neg hb, reorderAll_eq_map]

/-- A reordering acts at its tag. -/
theorem actsAt_reorder (a : α) (source target : Nat) : ActsAt a (reorder a source target) :=
  ⟨fun b l => by rw [reorder], fun _ s cs hb => reorder_branch_of_ne hb s cs⟩

/-- Where no tag occurs twice, the one subtree with the tag gives way to a placement. -/
theorem reorder_eq_replaceAt {t p : Tree α} (hnodup : t.tags.Nodup) {place : List Nat}
    (hp : t.subtreeAt? place = some p) (source target : Nat) :
    t.reorder p.tag source target = replaceAt (p.withMoved source target) t place := by
  have hbelow : p.tags.Nodup := (tags_sublist_of_subtreeAt? hp).nodup hnodup
  rw [(actsAt_reorder p.tag source target).eq_replaceAt hnodup hp rfl]
  congr 1
  cases p with
  | literal b l => rw [reorder, withMoved]
  | branch b s cs =>
    rw [tags_branch, List.nodup_cons] at hbelow
    have hsame : cs.map (reorder b source target) = cs := by
      refine (List.map_congr_left fun c hc => ?_).trans (List.map_id' cs)
      exact (actsAt_reorder b source target).eq_self fun hmem =>
        hbelow.1 (List.mem_flatMap.mpr ⟨c, hc, hmem⟩)
    rw [tag, reorder_branch_self, hsame, withMoved]

/-- Moves below different tags commute. -/
theorem reorder_comm (hab : a ≠ b) (i j k l : Nat) (t : Tree α) :
    (t.reorder a i j).reorder b k l = (t.reorder b k l).reorder a i j := by
  induction t with
  | literal c m => simp only [reorder]
  | branch c s cs ih =>
    have hchildren : (cs.map (reorder a i j)).map (reorder b k l) =
        (cs.map (reorder b k l)).map (reorder a i j) := by
      rw [List.map_map, List.map_map]
      exact List.map_congr_left ih
    by_cases hca : c = a
    · subst hca
      rw [reorder_branch_self, reorder_branch_of_ne hab, reorder_branch_of_ne hab,
        reorder_branch_self, map_moveElement, hchildren]
    · rw [reorder_branch_of_ne hca]
      by_cases hcb : c = b
      · subst hcb
        rw [reorder_branch_self, reorder_branch_self, reorder_branch_of_ne hca, map_moveElement,
          hchildren]
      · rw [reorder_branch_of_ne hcb, reorder_branch_of_ne hcb, reorder_branch_of_ne hca, hchildren]

end Reorder

/-- Two placements come to the same in either order if each is put into effect where the other has
brought the node that it is a placement of. -/
theorem replaceAt_withMoved_comm {u p q p' q' : Tree α} {around other around' other' : List Nat}
    {i j k l : Nat} (hne : p.tag ≠ q.tag) (hnodup : u.tags.Nodup)
    (hp : u.subtreeAt? around = some p) (hq : u.subtreeAt? other = some q)
    (hnodup₁ : (replaceAt (p.withMoved i j) u around).tags.Nodup)
    (hq' : (replaceAt (p.withMoved i j) u around).subtreeAt? other' = some q')
    (hqtag : q'.tag = q.tag)
    (hnodup₂ : (replaceAt (q.withMoved k l) u other).tags.Nodup)
    (hp' : (replaceAt (q.withMoved k l) u other).subtreeAt? around' = some p')
    (hptag : p'.tag = p.tag) :
    replaceAt (q'.withMoved k l) (replaceAt (p.withMoved i j) u around) other' =
      replaceAt (p'.withMoved i j) (replaceAt (q.withMoved k l) u other) around' := by
  classical
  rw [← reorder_eq_replaceAt hnodup₁ hq', ← reorder_eq_replaceAt hnodup₂ hp',
    ← reorder_eq_replaceAt hnodup hp, ← reorder_eq_replaceAt hnodup hq, hqtag, hptag]
  exact reorder_comm hne i j k l u

end Rearrange.Tree
