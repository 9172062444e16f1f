import Rearrange.Proofs.Tree.Graft
import Rearrange.Store.Path

namespace Rearrange

/-- An element is found at its index. -/
theorem elementAt?_eq_some_iff {α : Type} {l : List α} {index : Int} {a : α} :
    elementAt? l index = some a ↔ ∃ i : Nat, index = i ∧ l[i]? = some a := by
  rw [elementAt?]
  constructor
  · intro h
    split at h
    · cases h
    · exact ⟨index.toNat, by omega, h⟩
  · rintro ⟨i, rfl, hget⟩
    rwa [if_neg (by omega), Int.toNat_natCast]

/-- No element is found at an index below zero or past the end. -/
theorem elementAt?_eq_none_iff {α : Type} {l : List α} {index : Int} :
    elementAt? l index = none ↔ ¬ (0 ≤ index ∧ index < l.length) := by
  rw [elementAt?]
  split
  · next hneg => exact iff_of_true rfl fun h => absurd h.1 (Int.not_le.mpr hneg)
  · rw [List.getElem?_eq_none_iff]
    omega

/-- Places and the paths that write them as integers go with each other. -/
theorem map_toNat_map_ofNat (place : List Nat) : (place.map Int.ofNat).map Int.toNat = place := by
  rw [List.map_map]
  exact List.map_id' place

/-- What is found at an index is an element. -/
theorem mem_of_elementAt?_eq_some {α : Type} {l : List α} {index : Int} {a : α}
    (h : elementAt? l index = some a) : a ∈ l := by
  obtain ⟨i, -, hget⟩ := elementAt?_eq_some_iff.mp h
  exact List.mem_of_getElem? hget

/-- Elements may be replaced before one is looked up, or afterwards. -/
theorem elementAt?_map {α β : Type} (f : α → β) (l : List α) (index : Int) :
    elementAt? (l.map f) index = (elementAt? l index).map f := by
  rw [elementAt?, elementAt?]
  split
  · rfl
  · exact List.getElem?_map

namespace Tree

variable {α β : Type}

/-- The subtree at a place, if the place is in the tree. -/
def subtreeAt? : Tree α → List Nat → Option (Tree α)
  | t, [] => some t
  | t, i :: place => t.children[i]?.bind fun c => c.subtreeAt? place

/-- The tree with another one in place of a subtree. -/
def replaceAt (new : Tree α) : Tree α → List Nat → Tree α
  | _, [] => new
  | literal a l, _ :: _ => literal a l
  | branch a s cs, i :: place => branch a s (cs.modify i fun c => replaceAt new c place)

/-- The subtree that child indices lead to, which may be out of range on either side, from a tree
that lies at the given depth. -/
def followFrom (depth : Nat) : Tree α → List Int → Except LookupError (Tree α)
  | t, [] => .ok t
  | t, index :: path =>
    match elementAt? t.children index with
    | some c => c.followFrom (depth + 1) path
    | none => .error (.noChildAt index depth t.children.length)

@[simp] theorem subtreeAt?_nil (t : Tree α) : t.subtreeAt? [] = some t := by
  rw [subtreeAt?]

/-- The first index of a place leads to a child, the others on from there. -/
theorem subtreeAt?_cons_eq_some_iff {t u : Tree α} {i : Nat} {place : List Nat} :
    t.subtreeAt? (i :: place) = some u ↔
      ∃ c, t.children[i]? = some c ∧ c.subtreeAt? place = some u := by
  rw [subtreeAt?, Option.bind_eq_some_iff]

/-- A place can be followed in two parts. -/
theorem subtreeAt?_append (t : Tree α) (p q : List Nat) :
    t.subtreeAt? (p ++ q) = (t.subtreeAt? p).bind fun u => u.subtreeAt? q := by
  induction p generalizing t with
  | nil => rfl
  | cons i p ih =>
    rw [List.cons_append, subtreeAt?, subtreeAt?, Option.bind_assoc]
    simp only [ih]

/-- The children of the subtree at a place are the subtrees one step further. -/
theorem subtreeAt?_concat {t u : Tree α} {p : List Nat} (h : t.subtreeAt? p = some u) (i : Nat) :
    t.subtreeAt? (p ++ [i]) = u.children[i]? := by
  rw [subtreeAt?_append, h, Option.bind_some, subtreeAt?]
  simp only [subtreeAt?_nil, Option.bind_fun_some]

/-- A subtree at a place that is not empty is the child of the one at the place before its last
index. -/
theorem exists_subtreeAt?_of_concat {t c : Tree α} {p : List Nat} {i : Nat}
    (h : t.subtreeAt? (p ++ [i]) = some c) :
    ∃ u, t.subtreeAt? p = some u ∧ u.children[i]? = some c := by
  rw [subtreeAt?_append] at h
  obtain ⟨u, hu, hc⟩ := Option.bind_eq_some_iff.mp h
  refine ⟨u, hu, ?_⟩
  rw [← subtreeAt?_concat hu, subtreeAt?_append, hu]
  exact hc

/-- Tags are replaced in the children of a node one by one. -/
theorem children_map (f : α → β) (t : Tree α) :
    (t.map f).children = t.children.map (map f) := by
  cases t with
  | literal a l => rw [map_literal, children, children, List.map_nil]
  | branch a s cs => rw [map_branch, children, children]

/-- The children of an expression are those of the tree without their tags. -/
theorem children_erase (t : Tree α) : t.erase.children = t.children.map erase :=
  children_map _ t

/-- The tops of the children have the new tags. -/
theorem map_tag_children_map (f : α → β) (t : Tree α) :
    (t.map f).children.map tag = t.children.map fun c => f c.tag := by
  rw [children_map, List.map_map]
  exact List.map_congr_left fun c _ => tag_map f c

/-- Replacing tags keeps places. -/
theorem subtreeAt?_map (f : α → β) (t : Tree α) (place : List Nat) :
    (t.map f).subtreeAt? place = (t.subtreeAt? place).map (map f) := by
  induction place generalizing t with
  | nil => simp
  | cons i place ih =>
    rw [subtreeAt?, subtreeAt?, children_map, List.getElem?_map, Option.bind_map, Option.map_bind]
    exact congrArg _ (funext fun c => ih c)

/-- The subtree at a place after its tags are replaced. -/
theorem subtreeAt?_map_eq_some (f : α → β) {t u : Tree α} {place : List Nat}
    (h : t.subtreeAt? place = some u) : (t.map f).subtreeAt? place = some (u.map f) := by
  rw [subtreeAt?_map, h, Option.map_some]

/-- Replacing tags keeps where a path leads, or why it leads nowhere. -/
theorem followFrom_map (f : α → β) (t : Tree α) (depth : Nat) (path : List Int) :
    (t.map f).followFrom depth path = (t.followFrom depth path).map (map f) := by
  induction path generalizing t depth with
  | nil => rfl
  | cons index path ih =>
    rw [followFrom, followFrom, children_map, elementAt?_map, List.length_map]
    cases elementAt? t.children index with
    | none => rfl
    | some c => exact ih c (depth + 1)

/-- A path that leads to a node is its place. -/
theorem subtreeAt?_of_followFrom {t u : Tree α} {depth : Nat} {path : List Int}
    (h : t.followFrom depth path = .ok u) : t.subtreeAt? (path.map Int.toNat) = some u := by
  induction path generalizing t depth with
  | nil => exact congrArg some (Except.ok.inj h)
  | cons index path ih =>
    rw [followFrom] at h
    cases hchild : elementAt? t.children index with
    | none => rw [hchild] at h; cases h
    | some c =>
      rw [hchild] at h
      obtain ⟨i, rfl, hget⟩ := elementAt?_eq_some_iff.mp hchild
      rw [List.map_cons, Int.toNat_natCast]
      exact subtreeAt?_cons_eq_some_iff.mpr ⟨c, hget, ih h⟩

/-- The place of a node, written as a path, leads to it. -/
theorem followFrom_natCast {t u : Tree α} {place : List Nat} (depth : Nat)
    (h : t.subtreeAt? place = some u) : t.followFrom depth (place.map Int.ofNat) = .ok u := by
  induction place generalizing t depth with
  | nil => exact congrArg Except.ok (Option.some.inj h)
  | cons i place ih =>
    obtain ⟨c, hget, hc⟩ := subtreeAt?_cons_eq_some_iff.mp h
    have hchild : elementAt? t.children (Int.ofNat i) = some c :=
      elementAt?_eq_some_iff.mpr ⟨i, rfl, hget⟩
    rw [List.map_cons, followFrom, hchild]
    exact ih (depth + 1) hc

/-- Following a path succeeds if and only if it leads to a place of the tree. -/
theorem followFrom_eq_ok_iff {t u : Tree α} {depth : Nat} {path : List Int} :
    t.followFrom depth path = .ok u ↔
      ∃ place : List Nat, path = place.map Int.ofNat ∧ t.subtreeAt? place = some u := by
  constructor
  · intro h
    refine ⟨path.map Int.toNat, ?_, subtreeAt?_of_followFrom h⟩
    induction path generalizing t depth with
    | nil => rfl
    | cons index path ih =>
      rw [followFrom] at h
      split at h
      · next c hchild =>
        obtain ⟨i, rfl, -⟩ := elementAt?_eq_some_iff.mp hchild
        exact congrArg (List.cons (i : Int)) (ih h)
      · cases h
  · rintro ⟨place, rfl, hplace⟩
    exact followFrom_natCast depth hplace

@[simp] theorem replaceAt_nil (new t : Tree α) : replaceAt new t [] = new := by
  rw [replaceAt]

/-- A replacement below a child replaces this child only. -/
theorem children_replaceAt_cons (new t : Tree α) (i : Nat) (place : List Nat) :
    (replaceAt new t (i :: place)).children =
      t.children.modify i fun c => replaceAt new c place := by
  cases t with
  | literal a l => rw [replaceAt, children, List.modify_nil]
  | branch a s cs => rw [replaceAt, children, children]

/-- What replaces a subtree is found at its place. -/
theorem subtreeAt?_replaceAt {t u : Tree α} {place : List Nat} (h : t.subtreeAt? place = some u)
    (new : Tree α) : (replaceAt new t place).subtreeAt? place = some new := by
  induction place generalizing t with
  | nil => simp
  | cons i place ih =>
    obtain ⟨c, hget, hc⟩ := subtreeAt?_cons_eq_some_iff.mp h
    rw [subtreeAt?_cons_eq_some_iff, children_replaceAt_cons]
    exact ⟨_, by rw [List.getElem?_modify_eq, hget]; rfl, ih hc⟩

/-- Of two replacements at one place the second one counts. -/
theorem replaceAt_replaceAt (new newer t : Tree α) (place : List Nat) :
    replaceAt newer (replaceAt new t place) place = replaceAt newer t place := by
  induction place generalizing t with
  | nil => rw [replaceAt_nil, replaceAt_nil]
  | cons i place ih =>
    cases t with
    | literal a l => rw [replaceAt, replaceAt]
    | branch a s cs =>
      rw [replaceAt, replaceAt, replaceAt, List.modify_modify_eq]
      simp only [Function.comp_def, ih]

/-- A subtree that is replaced by itself leaves the tree as it is. -/
theorem replaceAt_of_subtreeAt? {t u : Tree α} {place : List Nat}
    (h : t.subtreeAt? place = some u) : replaceAt u t place = t := by
  induction place generalizing t with
  | nil =>
    obtain rfl := Option.some.inj h
    rw [replaceAt_nil]
  | cons i place ih =>
    obtain ⟨c, hget, hc⟩ := subtreeAt?_cons_eq_some_iff.mp h
    cases t with
    | literal a l => cases hget
    | branch a s cs =>
      rw [children] at hget
      rw [replaceAt]
      congr 1
      refine List.ext_getElem? fun j => ?_
      rw [List.getElem?_modify]
      by_cases hj : i = j
      · simp [← hj, hget, ih hc]
      · simp [hj]

/-- Tags may be replaced before a subtree is, or afterwards. -/
theorem map_replaceAt (f : α → β) (new t : Tree α) (place : List Nat) :
    (replaceAt new t place).map f = replaceAt (new.map f) (t.map f) place := by
  induction place generalizing t with
  | nil => simp
  | cons i place ih =>
    cases t with
    | literal a l => rw [replaceAt, map_literal, replaceAt]
    | branch a s cs =>
      rw [replaceAt, map_branch, map_branch, replaceAt]
      congr 1
      refine List.ext_getElem? fun j => ?_
      rw [List.getElem?_map, List.getElem?_modify, List.getElem?_modify, List.getElem?_map]
      by_cases hj : i = j
      · simp [hj, ih, Function.comp_def]
      · simp [hj]

/-- A tree is rearranged if a subtree is. -/
theorem Rearranged.replaceAt {t u v : Tree α} {place : List Nat} (h : t.subtreeAt? place = some u)
    (huv : u.Rearranged v) : t.Rearranged (replaceAt v t place) := by
  induction place generalizing t with
  | nil =>
    obtain rfl := Option.some.inj h
    rwa [replaceAt_nil]
  | cons i place ih =>
    obtain ⟨c, hget, hc⟩ := subtreeAt?_cons_eq_some_iff.mp h
    cases t with
    | literal a l => cases hget
    | branch a s cs =>
      rw [children] at hget
      obtain ⟨hlt, rfl⟩ := List.getElem?_eq_some_iff.mp hget
      have hsplit : cs = cs.take i ++ cs[i] :: cs.drop (i + 1) := by
        rw [← List.drop_eq_getElem_cons hlt, List.take_append_drop]
      rw [Tree.replaceAt, List.modify_eq_take_cons_drop hlt]
      conv_lhs => rw [hsplit]
      exact .child a s _ _ (ih hc)

/-- A walk meets the nodes of a subtree in their order. -/
theorem tags_sublist_of_subtreeAt? {t u : Tree α} {place : List Nat}
    (h : t.subtreeAt? place = some u) : u.tags.Sublist t.tags := by
  induction place generalizing t with
  | nil =>
    obtain rfl := Option.some.inj h
    exact .refl _
  | cons i place ih =>
    obtain ⟨c, hget, hc⟩ := subtreeAt?_cons_eq_some_iff.mp h
    cases t with
    | literal a l => cases hget
    | branch a s cs =>
      rw [tags_branch, List.flatMap_def]
      have hlisted : c.tags ∈ cs.map tags := List.mem_map_of_mem (List.mem_of_getElem? hget)
      exact .cons a ((ih hc).trans (List.sublist_flatten_of_mem hlisted))

/-- The nodes of a subtree are nodes of the tree. -/
theorem tags_subset_of_subtreeAt? {t u : Tree α} {place : List Nat}
    (h : t.subtreeAt? place = some u) : u.tags ⊆ t.tags :=
  (tags_sublist_of_subtreeAt? h).subset

/-- Each node that a walk meets has a place. -/
theorem exists_subtreeAt?_of_mem_tags {t : Tree α} {a : α} (h : a ∈ t.tags) :
    ∃ place u, t.subtreeAt? place = some u ∧ u.tag = a := by
  induction t with
  | literal b l =>
    obtain rfl : a = b := by simpa using h
    exact ⟨[], _, subtreeAt?_nil _, rfl⟩
  | branch b s cs ih =>
    rw [tags_branch, List.mem_cons, List.mem_flatMap] at h
    obtain rfl | ⟨c, hc, ha⟩ := h
    · exact ⟨[], _, subtreeAt?_nil _, rfl⟩
    · obtain ⟨place, u, hu, rfl⟩ := ih c hc ha
      obtain ⟨i, hi⟩ := List.mem_iff_getElem?.mp hc
      exact ⟨i :: place, u, subtreeAt?_cons_eq_some_iff.mpr ⟨c, hi, hu⟩, rfl⟩

/-- Where no tag occurs twice, different children share none. -/
private theorem notMem_tags_of_ne {cs : List (Tree α)} (hnodup : (cs.flatMap tags).Nodup)
    {i j : Nat} {c d : Tree α} (hi : cs[i]? = some c) (hj : cs[j]? = some d) (hne : i ≠ j)
    {a : α} (ha : a ∈ c.tags) : a ∉ d.tags := by
  have hdisjoint := List.pairwise_iff_getElem.mp (List.nodup_flatMap.mp hnodup).2
  obtain ⟨hilt, rfl⟩ := List.getElem?_eq_some_iff.mp hi
  obtain ⟨hjlt, rfl⟩ := List.getElem?_eq_some_iff.mp hj
  intro hd
  obtain hlt | hlt := Nat.lt_or_gt_of_ne hne
  · exact hdisjoint i j hilt hjlt hlt ha hd
  · exact hdisjoint j i hjlt hilt hlt hd ha

/-- The function changes a tree where a tag is. On its way there it passes through all other
nodes. -/
structure ActsAt (a : α) (F : Tree α → Tree α) : Prop where
  literal_eq : ∀ b l, F (literal b l) = literal b l
  branch_eq : ∀ b s cs, b ≠ a → F (branch b s cs) = branch b s (cs.map F)

variable {a : α} {F : Tree α → Tree α}

/-- What acts at a tag leaves trees alone in which the tag does not occur. -/
theorem ActsAt.eq_self (h : ActsAt a F) {t : Tree α} (ha : a ∉ t.tags) : F t = t := by
  induction t with
  | literal b l => exact h.literal_eq b l
  | branch b s cs ih =>
    rw [tags_branch, List.mem_cons, not_or, List.mem_flatMap] at ha
    have hsame : cs.map F = cs := by
      rw [List.map_congr_left fun c hc => ih c hc fun hmem => ha.2 ⟨c, hc, hmem⟩, List.map_id']
    rw [h.branch_eq b s cs (Ne.symm ha.1), hsame]

/-- Where no tag occurs twice, the change is made in one place. -/
theorem ActsAt.eq_replaceAt (h : ActsAt a F) {t u : Tree α} (hnodup : t.tags.Nodup)
    {place : List Nat} (hu : t.subtreeAt? place = some u) (htag : u.tag = a) :
    F t = replaceAt (F u) t place := by
  induction place generalizing t with
  | nil =>
    obtain rfl := Option.some.inj hu
    rw [replaceAt_nil]
  | cons i place ih =>
    obtain ⟨c, hget, hc⟩ := subtreeAt?_cons_eq_some_iff.mp hu
    cases t with
    | literal b l => cases hget
    | branch b r es =>
      rw [tags_branch, List.nodup_cons] at hnodup
      have hmem : a ∈ c.tags := htag ▸ tags_subset_of_subtreeAt? hc u.tag_mem_tags
      have hlisted := List.mem_of_getElem? hget
      have hne : b ≠ a := by
        rintro rfl
        exact hnodup.1 (List.mem_flatMap.mpr ⟨c, hlisted, hmem⟩)
      rw [h.branch_eq b r es hne, replaceAt]
      congr 1
      -- The tag is in the child that the place goes through and in no other one.
      refine List.ext_getElem? fun j => ?_
      rw [List.getElem?_map, List.getElem?_modify]
      by_cases hj : i = j
      · subst hj
        rw [children] at hget
        simp [hget, ih ((List.nodup_flatMap.mp hnodup.2).1 c hlisted) hc]
      · cases hother : es[j]? with
        | none => rfl
        | some e => simp [hj, h.eq_self (notMem_tags_of_ne hnodup.2 hget hother hj hmem)]

variable [DecidableEq α] {ds : List (Tree α)}

/-- A graft acts at its tag. -/
theorem actsAt_graft (a : α) (ds : List (Tree α)) : ActsAt a (graft a ds) :=
  ⟨fun b l => graft_literal b l, fun _ s cs hb => graft_branch_of_ne hb s cs⟩

/-- Where no tag occurs twice, a graft replaces the one branch that carries the tag. -/
theorem graft_eq_replaceAt {t : Tree α} (hnodup : t.tags.Nodup) {place : List Nat} {s : Shape}
    {cs : List (Tree α)} (h : t.subtreeAt? place = some (branch a s cs)) :
    t.graft a ds = replaceAt (branch a s ds) t place := by
  rw [(actsAt_graft a ds).eq_replaceAt hnodup h rfl, graft_branch_self]

end Tree

end Rearrange
