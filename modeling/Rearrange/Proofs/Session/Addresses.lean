import Rearrange.Proofs.Session.Reachable
import Rearrange.Proofs.Store.Path
import Rearrange.Proofs.Store.Upward
import Rearrange.Proofs.Tree.Preorder

namespace Rearrange

namespace Store

/-- The order in which a loop over a stack visits nodes: it takes the first node off the stack and
puts the children of the node in its place. -/
inductive Visits (s : Store) : List NodeId → List NodeId → Prop where
  | done : Visits s [] []
  | node {id : NodeId} {stack visited : List NodeId}
      (h : Visits s (s.children id ++ stack) visited) : Visits s (id :: stack) (id :: visited)

/-- The line of a node in the indented text of a tree, where child indices lead to it. -/
def line (s : Store) (place : List Nat) (id : NodeId) : List Char :=
  List.replicate place.length '\t' ++ ((s.expr id).marker ++ ['\n'])

/-- The nodes below a top and the child indices that lead to them determine each other: a path that
is looked up is given back by the node found, and every node has one. Whatever else is looked up is
refused where it leaves the tree. The way up from every node ends at the top. A walk meets every
node once, by the order of the paths, and the indented text has the lines of the nodes in the same
order. -/
structure Addressed (s : Store) (top : NodeId) : Prop where
  mem_walk_iff : ∀ id, id ∈ s.walk top ↔ Relation.ReflTransGen s.Lists top id
  nodeAt_childPath : ∀ id ∈ s.walk top, ∃ place, s.childPath id = .ok place ∧
    s.nodeAt top (place.map Int.ofNat) = .ok id
  childPath_nodeAt : ∀ path id, s.nodeAt top path = .ok id → id ∈ s.walk top ∧
    ∃ place, s.childPath id = .ok place ∧ path = place.map Int.ofNat
  nodeAt_other : ∀ path, (∀ id ∈ s.walk top, ∀ place, s.childPath id = .ok place →
      path ≠ place.map Int.ofNat) →
    ∃ (before : List Int) (index : Int) (after : List Int) (id : NodeId),
      path = before ++ index :: after ∧ s.nodeAt top before = .ok id ∧
      ¬ (0 ≤ index ∧ index < (s.children id).length) ∧
      s.nodeAt top path = .error (.noChildAt index before.length (s.children id).length)
  root_eq : ∀ id ∈ s.walk top, s.root id = some top
  visits : s.Visits [top] (s.walk top)
  nodup_walk : (s.walk top).Nodup
  length_walk : (s.walk top).length = (s.expr top).size
  exists_places : ∃ places : List (List Nat), (s.walk top).map s.childPath = places.map .ok ∧
    places.Pairwise (· < ·) ∧
    (s.expr top).indented 0 = (List.zipWith s.line places (s.walk top)).flatten

variable {s : Store} {t u : Tree NodeId} {place : List Nat}

/-- A loop over a stack walks through the tree below its first node before it goes on. -/
theorem Holds.visits (h : s.Holds t) {stack visited : List NodeId}
    (hrest : s.Visits stack visited) : s.Visits (t.tag :: stack) (t.tags ++ visited) := by
  induction h generalizing stack visited with
  | @literal id l hid hcontent =>
    rw [Tree.tags_literal, List.singleton_append]
    refine .node ?_
    rwa [Tree.tag, Store.children, hcontent]
  | @branch id shape cs hid hcontent hcs ih =>
    rw [Tree.tags_branch, List.cons_append]
    refine .node ?_
    rw [Tree.tag, Store.children, hcontent, Content.children]
    clear hcontent hcs
    induction cs with
    | nil => exact hrest
    | cons c cs ihcs =>
      obtain ⟨hc, hcs⟩ := List.forall_mem_cons.mp ih
      rw [List.flatMap_cons, List.append_assoc]
      exact hc (ihcs hcs)

/-- The nodes of a tree are those that ways down from its top lead to. -/
theorem Holds.mem_tags_iff (h : s.Holds t) {id : NodeId} :
    id ∈ t.tags ↔ Relation.ReflTransGen s.Lists t.tag id := by
  constructor
  · intro hid
    induction h with
    | literal hlt hcontent =>
      obtain rfl := List.mem_singleton.mp (by simpa using hid)
      exact .refl
    | @branch top shape cs hlt hcontent hcs ih =>
      rw [Tree.tags_branch, List.mem_cons, List.mem_flatMap] at hid
      obtain rfl | ⟨c, hc, hid⟩ := hid
      · exact .refl
      · refine .head ?_ (ih c hc hid)
        rw [Lists, (Holds.branch hlt hcontent hcs).children_tag]
        exact List.mem_map_of_mem hc
  · intro hsteps
    induction hsteps with
    | refl => exact t.tag_mem_tags
    | tail hprefix hlast ih => exact h.mem_of_mem_children ih hlast

/-- A path that is not followed to its end leaves the tree at one of its indices. -/
private theorem nodeFrom_eq_ok_or_error (s : Store) (depth : Nat) (id : NodeId) (path : List Int) :
    (∃ n, s.nodeFrom depth id path = .ok n) ∨
      ∃ before index after n, path = before ++ index :: after ∧
        s.nodeFrom depth id before = .ok n ∧ elementAt? (s.children n) index = none ∧
        s.nodeFrom depth id path =
          .error (.noChildAt index (depth + before.length) (s.children n).length) := by
  induction path generalizing depth id with
  | nil => exact .inl ⟨id, rfl⟩
  | cons index path ih =>
    rw [nodeFrom]
    cases hchild : elementAt? (s.children id) index with
    | none => exact .inr ⟨[], index, path, id, rfl, rfl, hchild, rfl⟩
    | some c =>
      obtain hfound | ⟨before, next, after, n, rfl, hn, hnone, herror⟩ := ih (depth + 1) c
      · exact .inl hfound
      · refine .inr ⟨index :: before, next, after, n, rfl, ?_, hnone, ?_⟩
        · rw [nodeFrom, hchild]
          exact hn
        · rw [List.length_cons, Nat.add_comm before.length, ← Nat.add_assoc]
          exact herror

/-- A path leads to a node when it is the place of the node. -/
theorem Owns.nodeAt_eq_ok_iff (h : s.Owns t) {path : List Int} {id : NodeId} :
    s.nodeAt t.tag path = .ok id ↔
      ∃ place u, path = place.map Int.ofNat ∧ t.subtreeAt? place = some u ∧ u.tag = id := by
  rw [nodeAt, h.nodeFrom_eq]
  constructor
  · intro hid
    cases hfollow : t.followFrom 0 path with
    | error e =>
      rw [hfollow] at hid
      cases hid
    | ok u =>
      rw [hfollow] at hid
      obtain ⟨place, hpath, hu⟩ := Tree.followFrom_eq_ok_iff.mp hfollow
      exact ⟨place, u, hpath, hu, Except.ok.inj hid⟩
  · rintro ⟨place, u, hpath, hu, rfl⟩
    rw [Tree.followFrom_eq_ok_iff.mpr ⟨place, hpath, hu⟩]
    rfl

/-- The way up from a node of a tree goes back along its place. -/
theorem Owns.climbs (h : s.Owns t) (htop : s.parent t.tag = none)
    (hu : t.subtreeAt? place = some u) : s.Climbs u.tag t.tag := by
  induction place using List.reverseRecOn generalizing u with
  | nil =>
    obtain rfl := Option.some.inj hu
    exact .top htop
  | append_singleton place i ih =>
    obtain ⟨p, hp, hc⟩ := Tree.exists_subtreeAt?_of_concat hu
    exact .up ((h.subtreeAt? hp).parent_eq hc) (ih hp)

/-- The top is marked as in the tree. -/
theorem Holds.marker_eq (h : s.Holds t) : (s.expr t.tag).marker = t.marker := by
  rw [h.expr_eq]
  cases t with
  | literal a l => rw [Tree.erase_literal, Tree.marker, Tree.marker]
  | branch a shape cs => cases shape <;> rw [Tree.erase_branch, Tree.marker, Tree.marker]

/-- The text has one line for each node of the walk. -/
theorem Owns.indented_eq (h : s.Owns t) :
    (s.expr t.tag).indented 0 =
      (List.zipWith s.line (t.located.map Prod.fst) (s.walk t.tag)).flatten := by
  rw [h.expr_eq, Tree.erase, Tree.indented_map, h.walk_eq, ← Tree.map_tag_located,
    List.zipWith_map, List.zipWith_self, ← List.flatMap_def]
  refine (t.indented_eq_flatMap_line 0).trans (List.flatMap_congr fun x hx => ?_)
  have hu := h.holds.subtreeAt? (Tree.mem_located_iff.mp hx)
  rw [line, hu.marker_eq, Tree.line, Nat.zero_add]

/-- A tree that stands under a node without parent is addressed by its paths. -/
theorem Owns.addressed (h : s.Owns t) (htop : s.parent t.tag = none) : s.Addressed t.tag := by
  have hplace : ∀ id ∈ s.walk t.tag, ∃ place u, t.subtreeAt? place = some u ∧ u.tag = id ∧
      s.childPath id = .ok place := by
    intro id hid
    rw [h.walk_eq] at hid
    obtain ⟨place, u, hu, rfl⟩ := Tree.exists_subtreeAt?_of_mem_tags hid
    exact ⟨place, u, hu, rfl, h.childPath_eq htop hu⟩
  constructor
  · intro id
    rw [h.walk_eq, h.holds.mem_tags_iff]
  · intro id hid
    obtain ⟨place, u, hu, htag, hpath⟩ := hplace id hid
    exact ⟨place, hpath, h.nodeAt_eq_ok_iff.mpr ⟨place, u, rfl, hu, htag⟩⟩
  · intro path id hid
    obtain ⟨place, u, rfl, hu, rfl⟩ := h.nodeAt_eq_ok_iff.mp hid
    refine ⟨?_, place, h.childPath_eq htop hu, rfl⟩
    rw [h.walk_eq]
    exact Tree.tags_subset_of_subtreeAt? hu u.tag_mem_tags
  -- A path that is no place leads some way down and then to an index that is out of range.
  · intro path hother
    obtain ⟨n, hn⟩ | ⟨before, index, after, n, hpath, hn, hnone, herror⟩ :=
      s.nodeFrom_eq_ok_or_error 0 t.tag path
    · obtain ⟨place, u, rfl, hu, rfl⟩ := h.nodeAt_eq_ok_iff.mp hn
      refine absurd rfl (hother u.tag ?_ place (h.childPath_eq htop hu))
      rw [h.walk_eq]
      exact Tree.tags_subset_of_subtreeAt? hu u.tag_mem_tags
    · rw [Nat.zero_add] at herror
      exact ⟨before, index, after, n, hpath, hn, elementAt?_eq_none_iff.mp hnone, herror⟩
  · intro id hid
    obtain ⟨place, u, hu, rfl, -⟩ := hplace id hid
    exact root_eq_some_iff.mpr (h.climbs htop hu)
  · have hvisits : s.Visits [t.tag] (t.tags ++ []) := h.holds.visits .done
    rwa [List.append_nil, ← h.walk_eq] at hvisits
  · exact h.walk_eq ▸ h.nodup
  · rw [h.walk_eq, h.expr_eq, ← Tree.length_tags, Tree.erase, Tree.tags_map, List.length_map]
  · refine ⟨t.located.map Prod.fst, ?_, t.pairwise_located, h.indented_eq⟩
    rw [h.walk_eq, ← Tree.map_tag_located, List.map_map, List.map_map]
    exact List.map_congr_left fun x hx => h.childPath_eq htop (Tree.mem_located_iff.mp hx)

end Store

namespace Session

/-- Paths address the nodes of every tree whose links are in order and whose top has no parent. The
root of every session that commands lead to is the top of such a tree. -/
theorem addressed_by_paths :
    (∀ (s : Store) (t : Tree NodeId), s.Owns t → s.parent t.tag = none → s.Addressed t.tag) ∧
      ∀ start s : Session, start.Starts → Reachable start s → s.store.Addressed s.root := by
  refine ⟨fun s t h htop => h.addressed htop, fun start s hstart h => ?_⟩
  obtain ⟨t, ht⟩ := h.exists_invariant hstart
  have htop : s.store.parent t.tag = none := ht.tag_eq ▸ ht.parent_root
  exact ht.tag_eq ▸ ht.owns.addressed htop

/-- Of the operands of a sum two are equal and still have paths of their own, and there is no
operand before the first one. -/
theorem addressed_by_paths_equal_operands :
    let x : Expr := .literal () ⟨['x'], rfl⟩
    let planted : Tree (Option Handle) := (Tree.branch () (.chain .plus)
      [x, .branch () .group [x], x]).map fun _ => none
    let store := Store.empty.plant planted
    let start := ofNode store 0 true
    let selected := (step { start with reparse := true } (.selectPath [1, 0])).session
    ([1, 3, 4].map (fun id => (store.childPath id).toOption) = [some [0], some [1, 0], some [2]] ∧
      store.nodeAt 0 [-1] = .error (.noChildAt (-1) 0 3) ∧ store.Addressed 0) ∧
      selected.focus = 8 ∧ selected.store.Addressed selected.root := by
  intro x planted store start selected
  have howns : store.Owns (planted.numbered 0) := Store.owns_plant Store.empty planted
  have htop : store.parent (planted.numbered 0).tag = none :=
    Store.parent_plant Store.empty planted
  have hreachable : Reachable start selected := .step .start true (.selectPath [1, 0])
  have haddressed := addressed_by_paths.1 store (planted.numbered 0) howns htop
  have hcount : (store.children 0).length = 3 := by decide +kernel
  have hbefore : store.nodeAt 0 [-1] = .error (.noChildAt (-1) 0 3) := by
    rw [Store.nodeAt, Store.nodeFrom, hcount]
    rfl
  refine ⟨⟨by decide +kernel, hbefore, haddressed⟩, by decide +kernel, ?_⟩
  exact addressed_by_paths.2 start selected (.inl ⟨store, 0, true, rfl⟩) hreachable

end Session

end Rearrange
