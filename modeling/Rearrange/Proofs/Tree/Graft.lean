import Mathlib.Data.List.Nodup
import Mathlib.Data.List.Pairwise
import Rearrange.Proofs.Tree.Rearranged

namespace Rearrange.Tree

variable {α β : Type} [DecidableEq α] {a : α} {ds : List (Tree α)}

mutual
/-- The tree with other trees below the branches that carry a tag. -/
def graft (a : α) (ds : List (Tree α)) : Tree α → Tree α
  | literal b l => literal b l
  | branch b s cs => branch b s (if b = a then ds else graftAll a ds cs)

/-- The trees with other trees below the branches that carry a tag. -/
def graftAll (a : α) (ds : List (Tree α)) : List (Tree α) → List (Tree α)
  | [] => []
  | c :: cs => c.graft a ds :: graftAll a ds cs
end

theorem graftAll_eq_map (a : α) (ds cs : List (Tree α)) :
    graftAll a ds cs = cs.map (graft a ds) := by
  induction cs with
  | nil => rfl
  | cons c cs ih => simp [graftAll, ih]

@[simp] theorem graft_literal (b : α) (l : Literal) : (literal b l).graft a ds = literal b l := by
  rw [graft]

/-- The branch with the tag gets the new children. -/
theorem graft_branch_self (s : Shape) (cs : List (Tree α)) :
    (branch a s cs).graft a ds = branch a s ds := by
  rw [graft, if_pos rfl]

/-- Any other branch is grafted in its children. -/
theorem graft_branch_of_ne {b : α} (hb : b ≠ a) (s : Shape) (cs : List (Tree α)) :
    (branch b s cs).graft a ds = branch b s (cs.map (graft a ds)) := by
  rw [graft, if_neg hb, graftAll_eq_map]

/-- A graft keeps the top. -/
@[simp] theorem tag_graft (t : Tree α) : (t.graft a ds).tag = t.tag := by
  cases t with
  | literal b l => rw [graft_literal]
  | branch b s cs => rw [graft, tag, tag]

/-- The graft takes place where its tag is. -/
theorem mem_tags_graft {t : Tree α} {x : α} (h : x ∈ (t.graft a ds).tags) :
    x ∈ t.tags ∨ a ∈ t.tags ∧ x ∈ ds.flatMap tags := by
  induction t with
  | literal b l => exact .inl (by rwa [graft_literal] at h)
  | branch b s cs ih =>
    rw [tags_branch, List.mem_cons, List.mem_cons]
    by_cases hb : b = a
    · subst hb
      rw [graft_branch_self, tags_branch, List.mem_cons] at h
      exact h.imp .inl fun hx => ⟨.inl rfl, hx⟩
    · rw [graft_branch_of_ne hb, tags_branch, List.mem_cons, List.flatMap_map,
        List.mem_flatMap] at h
      obtain rfl | ⟨c, hc, hx⟩ := h
      · exact .inl (.inl rfl)
      · obtain hx | ⟨ha, hx⟩ := ih c hc hx
        · exact .inl (.inr (List.mem_flatMap.mpr ⟨c, hc, hx⟩))
        · exact .inr ⟨.inr (List.mem_flatMap.mpr ⟨c, hc, ha⟩), hx⟩

/-- No tag occurs twice after a graft of trees with new tags. -/
theorem nodup_tags_graft {t : Tree α} (ht : t.tags.Nodup) (hds : (ds.flatMap tags).Nodup)
    (hnew : t.tags.Disjoint (ds.flatMap tags)) : (t.graft a ds).tags.Nodup := by
  induction t with
  | literal b l => simp
  | branch b s cs ih =>
    rw [tags_branch, List.disjoint_cons_left] at hnew
    obtain ⟨hout, hnew⟩ := hnew
    by_cases hb : b = a
    · subst hb
      rw [graft_branch_self, tags_branch]
      exact hds.cons hout
    · rw [tags_branch, List.nodup_cons] at ht
      obtain ⟨hbelow, hnodup⟩ := ht
      have hnewOf : ∀ c ∈ cs, c.tags.Disjoint (ds.flatMap tags) := fun c hc x hx =>
        hnew (List.mem_flatMap.mpr ⟨c, hc, hx⟩)
      rw [graft_branch_of_ne hb, tags_branch, List.flatMap_map, List.nodup_cons]
      refine ⟨fun hmem => ?_, ?_⟩
      · obtain ⟨c, hc, hx⟩ := List.mem_flatMap.mp hmem
        obtain hx | ⟨_, hx⟩ := mem_tags_graft hx
        · exact hbelow (List.mem_flatMap.mpr ⟨c, hc, hx⟩)
        · exact hout hx
      · rw [List.nodup_flatMap] at hnodup ⊢
        refine ⟨fun c hc => ih c hc (hnodup.1 c hc) (hnewOf c hc), ?_⟩
        refine hnodup.2.imp_of_mem fun {c d} hc hd hdisjoint x hxc hxd => ?_
        -- What both children show was not there before in both, and the graft took place in one.
        obtain hxc | ⟨hac, hx⟩ := mem_tags_graft hxc
        · obtain hxd | ⟨_, hx⟩ := mem_tags_graft hxd
          · exact hdisjoint hxc hxd
          · exact hnewOf c hc hxc hx
        · obtain hxd | ⟨had, _⟩ := mem_tags_graft hxd
          · exact hnewOf d hd hxd hx
          · exact hdisjoint hac had

end Rearrange.Tree
