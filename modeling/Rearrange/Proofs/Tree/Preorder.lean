import Rearrange.Proofs.Tree.Indented
import Rearrange.Proofs.Tree.Place

namespace Rearrange.Tree

variable {α : Type}

mutual
/-- The subtrees of a tree with their places, each before those below it. -/
def located : Tree α → List (List Nat × Tree α)
  | literal a l => [([], literal a l)]
  | branch a s cs => ([], branch a s cs) :: locatedAll 0 cs

/-- The subtrees of several trees with their places below a node that has the trees as its children
from an index on. -/
def locatedAll (i : Nat) : List (Tree α) → List (List Nat × Tree α)
  | [] => []
  | c :: cs => c.located.map (fun x => (i :: x.1, x.2)) ++ locatedAll (i + 1) cs
end

/-- The top comes first, at the empty place. -/
theorem located_eq_cons (t : Tree α) : t.located = ([], t) :: locatedAll 0 t.children := by
  cases t with
  | literal a l => rw [located, children, locatedAll]
  | branch a s cs => rw [located, children]

/-- A node below one of several trees has the index of the tree before its place in it. -/
theorem mem_locatedAll_iff {i : Nat} {cs : List (Tree α)} {place : List Nat} {u : Tree α} :
    (place, u) ∈ locatedAll i cs ↔
      ∃ j c below, cs[j]? = some c ∧ place = (i + j) :: below ∧ (below, u) ∈ c.located := by
  induction cs generalizing i with
  | nil => simp [locatedAll]
  | cons d ds ih =>
    rw [locatedAll, List.mem_append, ih, List.mem_map]
    constructor
    · rintro (⟨⟨below, v⟩, hmem, heq⟩ | ⟨j, c, below, hget, rfl, hmem⟩)
      · obtain ⟨rfl, rfl⟩ := Prod.mk.inj heq
        exact ⟨0, d, below, rfl, rfl, hmem⟩
      · exact ⟨j + 1, c, below, hget, by rw [Nat.add_right_comm, Nat.add_assoc], hmem⟩
    · rintro ⟨j, c, below, hget, rfl, hmem⟩
      cases j with
      | zero =>
        obtain rfl := Option.some.inj hget
        exact .inl ⟨(below, u), hmem, rfl⟩
      | succ j => exact .inr ⟨j, c, below, hget, by rw [Nat.add_right_comm, Nat.add_assoc], hmem⟩

/-- The subtrees listed are those that the places lead to. -/
theorem mem_located_iff {t u : Tree α} {place : List Nat} :
    (place, u) ∈ t.located ↔ t.subtreeAt? place = some u := by
  induction place generalizing t with
  | nil =>
    rw [located_eq_cons, List.mem_cons, mem_locatedAll_iff, subtreeAt?_nil, Option.some_inj]
    constructor
    · rintro (h | ⟨j, c, below, hget, hplace, hmem⟩)
      · exact (Prod.mk.inj h).2.symm
      · cases hplace
    · rintro rfl
      exact .inl rfl
  | cons i place ih =>
    rw [located_eq_cons, List.mem_cons, mem_locatedAll_iff, subtreeAt?_cons_eq_some_iff]
    constructor
    · rintro (h | ⟨j, c, below, hget, hplace, hmem⟩)
      · cases (Prod.mk.inj h).1
      · obtain ⟨rfl, rfl⟩ := List.cons.inj hplace
        exact ⟨c, by rwa [Nat.zero_add], ih.mp hmem⟩
    · rintro ⟨c, hget, hc⟩
      exact .inr ⟨i, c, place, hget, by rw [Nat.zero_add], ih.mpr hc⟩

/-- The places below several trees are in order if they are in each of them. -/
theorem pairwise_locatedAll {cs : List (Tree α)} (i : Nat)
    (hcs : ∀ c ∈ cs, (c.located.map Prod.fst).Pairwise (· < ·)) :
    ((locatedAll i cs).map Prod.fst).Pairwise (· < ·) := by
  induction cs generalizing i with
  | nil => exact .nil
  | cons c cs ih =>
    obtain ⟨hc, hcs⟩ := List.forall_mem_cons.mp hcs
    rw [locatedAll, List.map_append, List.map_map, List.pairwise_append]
    refine ⟨?_, ih (i + 1) hcs, ?_⟩
    · rw [List.pairwise_map] at hc ⊢
      exact hc.imp fun h => List.cons_lt_cons_iff.mpr (.inr ⟨rfl, h⟩)
    · -- Places in a later child start with a larger index.
      intro p hp q hq
      obtain ⟨x, -, rfl⟩ := List.mem_map.mp hp
      obtain ⟨⟨place, u⟩, hmem, rfl⟩ := List.mem_map.mp hq
      obtain ⟨j, d, below, -, rfl, -⟩ := mem_locatedAll_iff.mp hmem
      exact List.cons_lt_cons_iff.mpr (.inl (by omega))

/-- The places are listed in strictly increasing lexicographic order. -/
theorem pairwise_located (t : Tree α) : (t.located.map Prod.fst).Pairwise (· < ·) := by
  induction t with
  | literal a l => exact List.pairwise_singleton _ _
  | branch a s cs ih =>
    rw [located, List.map_cons, List.pairwise_cons]
    refine ⟨fun p hp => ?_, pairwise_locatedAll 0 ih⟩
    obtain ⟨⟨place, u⟩, hmem, rfl⟩ := List.mem_map.mp hp
    obtain ⟨j, d, below, -, rfl, -⟩ := mem_locatedAll_iff.mp hmem
    exact List.nil_lt_cons _ _

/-- The nodes below several trees are in the order of their walks. -/
theorem map_tag_locatedAll {cs : List (Tree α)} (i : Nat)
    (hcs : ∀ c ∈ cs, c.located.map (·.2.tag) = c.tags) :
    (locatedAll i cs).map (·.2.tag) = cs.flatMap tags := by
  induction cs generalizing i with
  | nil => rfl
  | cons c cs ih =>
    obtain ⟨hc, hcs⟩ := List.forall_mem_cons.mp hcs
    rw [locatedAll, List.map_append, List.map_map, List.flatMap_cons, ih (i + 1) hcs, ← hc]
    rfl

/-- The subtrees are listed in the order in which their tops are walked. -/
theorem map_tag_located (t : Tree α) : t.located.map (·.2.tag) = t.tags := by
  induction t with
  | literal a l => rfl
  | branch a s cs ih => rw [located, List.map_cons, map_tag_locatedAll 0 ih, tags_branch, tag]

/-- The line of a subtree in the indented text of a tree that starts at a depth. -/
def line (depth : Nat) (place : List Nat) (t : Tree α) : List Char :=
  List.replicate (depth + place.length) '\t' ++ (t.marker ++ ['\n'])

/-- A node one place further down is indented by one more. -/
private theorem line_cons (depth i : Nat) (place : List Nat) (t : Tree α) :
    t.line depth (i :: place) = t.line (depth + 1) place := by
  rw [line, line, List.length_cons, Nat.add_right_comm, Nat.add_assoc]

/-- The lines of several trees are those of their nodes in order. -/
theorem flatMap_line_locatedAll {cs : List (Tree α)} (depth i : Nat)
    (hcs : ∀ c ∈ cs, c.indented (depth + 1 : Nat) =
      c.located.flatMap fun x => x.2.line (depth + 1) x.1) :
    (locatedAll i cs).flatMap (fun x => x.2.line depth x.1) =
      cs.flatMap (indented (depth + 1 : Nat)) := by
  induction cs generalizing i with
  | nil => rfl
  | cons c cs ih =>
    obtain ⟨hc, hcs⟩ := List.forall_mem_cons.mp hcs
    rw [locatedAll, List.flatMap_append, List.flatMap_map, List.flatMap_cons, ih (i + 1) hcs, hc]
    simp only [line_cons]

/-- The indented text has a line for each subtree in the order of the list. -/
theorem indented_eq_flatMap_line (t : Tree α) (depth : Nat) :
    t.indented depth = t.located.flatMap fun x => x.2.line depth x.1 := by
  induction t generalizing depth with
  | literal a l => simp [indented_natCast, located, line, children]
  | branch a s cs ih =>
    rw [indented_natCast, located, List.flatMap_cons,
      flatMap_line_locatedAll depth 0 fun c hc => ih c hc (depth + 1)]
    simp [line, children]

end Rearrange.Tree
