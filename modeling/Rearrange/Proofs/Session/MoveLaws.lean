import Rearrange.Proofs.Session.Labels
import Rearrange.Proofs.Session.Rearrangements
import Rearrange.Proofs.Tree.Reorder

namespace Rearrange.Session

variable {start s s' : Session} {t c : Tree NodeId} {u p q : Tree (Option Handle)}
  {place around : List Nat} {index target : Nat} {handle : Option Handle}

/-- Wherever among its siblings the focused node has been put, a move puts it where it would have
put it from its first position. -/
theorem Carries.step_moveTo_of_moved (h : s.Carries (Tree.replaceAt (p.withMoved index target) u
      around) (around ++ [target]))
    (hp : u.subtreeAt? around = some p) (hindex : index < p.children.length)
    (htarget : target < p.children.length) {final : Nat} (hfinal : final < p.children.length) :
    (∃ answer, (s.step (.moveTo final)).result = .ok answer) ∧
      (s.step (.moveTo final)).session.Carries
        (Tree.replaceAt (p.withMoved index final) u around) (around ++ [final]) := by
  have hmoved := Tree.subtreeAt?_replaceAt hp (p.withMoved index target)
  have hroom : final < (p.withMoved index target).children.length := by
    rwa [(Tree.children_withMoved_perm index htarget).length_eq]
  have hstep := h.step_moveTo hmoved hroom
  rwa [Tree.replaceAt_replaceAt, Tree.withMoved_withMoved hindex htarget] at hstep

/-- After any moves the focused node is at some position among its siblings, and they are in their
order. -/
theorem Carries.exists_run_moveTo (h : s.Carries u (around ++ [index]))
    (hp : u.subtreeAt? around = some p) (hindex : index < p.children.length)
    (positions : List Int) :
    ∃ target < p.children.length, (s.run (positions.map .moveTo)).Carries
      (Tree.replaceAt (p.withMoved index target) u around) (around ++ [target]) := by
  suffices hmoved : ∀ target < p.children.length,
      s.Carries (Tree.replaceAt (p.withMoved index target) u around) (around ++ [target]) →
      ∃ final < p.children.length, (s.run (positions.map .moveTo)).Carries
        (Tree.replaceAt (p.withMoved index final) u around) (around ++ [final]) by
    refine hmoved index hindex ?_
    rwa [Tree.withMoved_self, Tree.replaceAt_of_subtreeAt? hp]
  clear h
  induction positions generalizing s with
  | nil => exact fun target htarget h => ⟨target, htarget, h⟩
  | cons position positions ih =>
    intro target htarget h
    by_cases hposition : 0 ≤ position ∧ position < p.children.length
    · obtain ⟨final, rfl⟩ := Int.eq_ofNat_of_zero_le hposition.1
      have hfinal := Int.ofNat_lt.mp hposition.2
      exact ih final hfinal (h.step_moveTo_of_moved hp hindex htarget hfinal).2
    · have hmoved := Tree.subtreeAt?_replaceAt hp (p.withMoved index target)
      refine ih target htarget (h.step_moveTo_of_not hmoved ?_)
      rwa [(Tree.children_withMoved_perm index htarget).length_eq]

/-- In a session that commands lead to, the focused node goes where a move puts it, of two moves the
second one alone would have done the same, and a move to the position that the node has changes
nothing. So whatever the moves were, one back to the first position undoes them all. -/
theorem moveTo_absorbs_moves (h : Reachable start s) (hstart : start.Starts)
    (hfocus : s.focus ≠ s.root) :
    ∃ p place index, s.store.parent s.focus = some p ∧
      s.store.indexInParent s.focus = .ok index ∧ s.focusPath = .ok (place ++ [index]) ∧
      (∀ j k : Nat, j < (s.store.children p).length → k < (s.store.children p).length →
        let first := s.step (.moveTo j)
        let second := first.session.step (.moveTo k)
        let only := s.step (.moveTo k)
        ¬ first.Fails ∧ ¬ second.Fails ∧ ¬ only.Fails ∧ second.session.Alike only.session ∧
          only.session.focusPath = .ok (place ++ [k])) ∧
      (¬ (s.step (.moveTo index)).Fails ∧ (s.step (.moveTo index)).session.Alike s) ∧
      ∀ positions : List Int,
        (s.run (positions.map .moveTo ++ [.moveTo index])).Alike s := by
  obtain ⟨t, ht⟩ := h.exists_invariant hstart
  obtain ⟨v, hv⟩ := ht.exists_shows
  obtain ⟨c, hc, htag⟩ := hv.focus_eq
  obtain ⟨p, around, index, q, hplace, hlisted⟩ := ht.exists_listed hc (htag ▸ hfocus)
  rw [htag] at hlisted
  have hcarries : s.Carries s.labelled (around ++ [index]) := hplace ▸ hv.carries
  have hq := hlisted.subtreeAt?_eq
  have hindex : index < q.children.length := by
    obtain ⟨hlt, -⟩ := List.getElem?_eq_some_iff.mp hlisted.getElem?_eq
    rwa [List.length_map] at hlt
  -- Moving the node to where it was puts the labels in place that were there.
  have hback : Tree.replaceAt (q.withMoved index index) s.labelled around = s.labelled := by
    rw [Tree.withMoved_self, Tree.replaceAt_of_subtreeAt? hq]
  refine ⟨p, around, index, hlisted.parent_eq, hlisted.indexInParent_eq, hcarries.focusPath_eq,
    fun j k hj hk => ?_, ?_, fun positions => ?_⟩
  · rw [hlisted.length_eq] at hj hk
    obtain ⟨⟨_, hfirst⟩, hmoved⟩ := hcarries.step_moveTo hq hj
    obtain ⟨⟨_, hsecond⟩, hsecondCarries⟩ := hmoved.step_moveTo_of_moved hq hindex hj hk
    obtain ⟨⟨_, honly⟩, honlyCarries⟩ := hcarries.step_moveTo hq hk
    exact ⟨Outcome.not_fails hfirst, Outcome.not_fails hsecond, Outcome.not_fails honly,
      hsecondCarries.alike honlyCarries, honlyCarries.focusPath_eq⟩
  · obtain ⟨⟨_, hstep⟩, hstays⟩ := hcarries.step_moveTo hq hindex
    rw [hback] at hstays
    exact ⟨Outcome.not_fails hstep, hstays.alike hcarries⟩
  · obtain ⟨target, htarget, hmoved⟩ := hcarries.exists_run_moveTo hq hindex positions
    obtain ⟨-, hreturned⟩ := hmoved.step_moveTo_of_moved hq hindex htarget hindex
    rw [hback] at hreturned
    rw [run_append]
    exact hreturned.alike hcarries

/-- The last of three terms of a sum, the first of which is equal to it, is moved about. -/
theorem moveTo_absorbs_moves_equal_terms :
    let a : Expr := .literal () ⟨['a'], rfl⟩
    let b : Expr := .literal () ⟨['b'], rfl⟩
    let start := ofExpr (.branch () .group [.branch () (.chain .plus) [a, b, a]]) true
    let s := (step { start with reparse := true } (.selectPath [0, 2])).session
    s.focus ≠ s.root ∧
      ((s.step (.moveTo 0)).session.step (.moveTo 1)).session.Alike (s.step (.moveTo 1)).session ∧
      (s.run [.moveTo 0, .moveTo 7, .moveTo 1, .moveTo 2]).Alike s := by
  intro a b start s
  have hreachable : Reachable start s := .step .start true (.selectPath [0, 2])
  have hfocus : s.focus ≠ s.root := by decide +kernel
  obtain ⟨p, place, index, hparent, hindex, -, hmoves, -, hback⟩ :=
    moveTo_absorbs_moves hreachable (.inl ⟨_, _, _, rfl⟩) hfocus
  have haround : s.store.parent s.focus = some 6 := by decide +kernel
  have hlast : (s.store.indexInParent s.focus).toOption = some 2 := by decide +kernel
  rw [hindex] at hlast
  obtain rfl : p = 6 := Option.some.inj (hparent.symm.trans haround)
  obtain rfl : index = 2 := Option.some.inj hlast
  obtain ⟨-, -, -, halike, -⟩ := hmoves 0 1 (by decide +kernel) (by decide +kernel)
  exact ⟨hfocus, halike, hback [0, 7, 1]⟩

/-- Focuses the node below the root that carries a handle by its path and moves it to a position
among its siblings. -/
def moveHandle (s : Session) (handle : Option Handle) (position : Int) : Option Session := do
  let id ← s.store.find? s.root handle
  let path ← (s.store.childPath id).toOption
  let selected := s.step (.selectPath (path.map Int.ofNat))
  let _ ← selected.result.toOption
  let moved := selected.session.step (.moveTo position)
  let _ ← moved.result.toOption
  return moved.session

/-- A node listed by another one can be moved by its handle to every position there. -/
theorem Carries.exists_moveHandle (h : s.Carries u place) (hp : u.subtreeAt? around = some p)
    (hindex : (p.children.map Tree.tag)[index]? = some handle)
    (htarget : target < p.children.length) :
    ∃ s', s.moveHandle handle target = some s' ∧
      s'.Carries (Tree.replaceAt (p.withMoved index target) u around) (around ++ [target]) := by
  have hcarries := h
  obtain ⟨t, v, hv, -, rfl⟩ := h
  have hlabelled := hp
  rw [Tree.subtreeAt?_map, Option.map_eq_some_iff] at hp
  obtain ⟨q, hq, rfl⟩ := hp
  rw [Tree.map_tag_children_map, List.getElem?_map, Option.map_eq_some_iff] at hindex
  obtain ⟨c, hchild, rfl⟩ := hindex
  have hc : t.subtreeAt? (around ++ [index]) = some c := by rw [Tree.subtreeAt?_concat hq, hchild]
  have hinvariant := hv.invariant
  have hfind : s.store.find? s.root (s.store.handle c.tag) = some c.tag := by
    rw [← hinvariant.tag_eq]
    exact hinvariant.find?_handle t.subtreeAt?_nil
      (Tree.tags_subset_of_subtreeAt? hc c.tag_mem_tags)
  have hpath : s.store.childPath c.tag = .ok (around ++ [index]) :=
    hinvariant.owns.childPath_eq (hinvariant.tag_eq ▸ hinvariant.parent_root) hc
  have hplaced := Tree.subtreeAt?_map_eq_some s.store.handle hc
  obtain ⟨⟨_, hselected⟩, hfocused⟩ := hcarries.step_selectPath hplaced
  obtain ⟨⟨_, hmoved⟩, hresult⟩ := hfocused.step_moveTo hlabelled htarget
  refine ⟨_, ?_, hresult⟩
  simp only [moveHandle, hfind, hpath, hselected, hmoved, Except.toOption, Option.bind_eq_bind,
    Option.bind_some, Option.pure_def]

/-- After a move below one node, a node listed by another one is listed there still, so it can be
moved by its handle. -/
theorem Carries.exists_moveHandle_moveHandle (h : s.Carries u place)
    {other : List Nat} {i j k l : Nat} {a b : Option Handle} (hne : q.tag ≠ p.tag)
    (hp : u.subtreeAt? around = some p) (hi : (p.children.map Tree.tag)[i]? = some a)
    (hj : j < p.children.length)
    (hq : u.subtreeAt? other = some q) (hk : (q.children.map Tree.tag)[k]? = some b)
    (hl : l < q.children.length) :
    let moved := Tree.replaceAt (p.withMoved i j) u around
    ∃ s' other' q', (s.moveHandle a j).bind (fun s => s.moveHandle b l) = some s' ∧
      moved.tags.Nodup ∧ moved.subtreeAt? other' = some q' ∧ q'.tag = q.tag ∧
      s'.labelled = Tree.replaceAt (q'.withMoved k l) moved other' ∧
      (s'.labelled.subtreeAt? (other' ++ [l])).map Tree.tag = some b := by
  intro moved
  obtain ⟨other', q', hq', hentry⟩ := Tree.exists_entry_eq_replaceAt hp (p.tag_withMoved i j)
    (Tree.children_withMoved_perm i hj) hq hne
  have hlisted : q'.children.map Tree.tag = q.children.map Tree.tag :=
    congrArg Entry.children hentry
  have hlength : q'.children.length = q.children.length := by
    rw [← List.length_map (f := Tree.tag), hlisted, List.length_map]
  rw [← hlisted] at hk
  rw [← hlength] at hl
  obtain ⟨s₁, hfirst, hmoved⟩ := h.exists_moveHandle hp hi hj
  obtain ⟨s', hsecond, hcarries⟩ := hmoved.exists_moveHandle hq' hk hl
  refine ⟨s', other', q', by rw [hfirst, Option.bind_some, hsecond], hmoved.nodup_tags, hq',
    congrArg Entry.tag hentry, hcarries.labelled_eq, ?_⟩
  rw [hcarries.labelled_eq]
  exact Tree.map_tag_subtreeAt?_replaceAt hq' hk hl

/-- In a session that commands lead to, moves of two nodes below different nodes can be made in
either order. Both nodes end up where their moves put them, and the expression is the same with the
same handle on every node. Each node is addressed by its handle before its move, so that it does not
matter whether it was copied or brought elsewhere by the other one. -/
theorem moveHandle_comm (h : Reachable start s) (hstart : start.Starts) {a b : NodeId}
    (ha : a ∈ s.store.walk s.root) (hb : b ∈ s.store.walk s.root) (haroot : a ≠ s.root)
    (hbroot : b ≠ s.root) (hparents : s.store.parent a ≠ s.store.parent b) :
    ∃ p q, s.store.parent a = some p ∧ s.store.parent b = some q ∧
      ∀ i j : Nat, i < (s.store.children p).length → j < (s.store.children q).length →
        ∃ s₁ s₂,
          (s.moveHandle (s.store.handle a) i).bind
            (fun s' => s'.moveHandle (s.store.handle b) j) = some s₁ ∧
          (s.moveHandle (s.store.handle b) j).bind
            (fun s' => s'.moveHandle (s.store.handle a) i) = some s₂ ∧
          s₁.labelled = s₂.labelled ∧
          ∃ around other,
            (s₁.labelled.subtreeAt? (around ++ [i])).map Tree.tag = some (s.store.handle a) ∧
            (s₁.labelled.subtreeAt? (other ++ [j])).map Tree.tag = some (s.store.handle b) := by
  obtain ⟨t, ht⟩ := h.exists_invariant hstart
  obtain ⟨v, hv⟩ := ht.exists_shows
  rw [ht.walk_root] at ha hb
  obtain ⟨_, c, hc, rfl⟩ := Tree.exists_subtreeAt?_of_mem_tags ha
  obtain ⟨_, d, hd, rfl⟩ := Tree.exists_subtreeAt?_of_mem_tags hb
  obtain ⟨p, around, k, u, -, hlistedc⟩ := ht.exists_listed hc haroot
  obtain ⟨q, other, l, w, -, hlistedd⟩ := ht.exists_listed hd hbroot
  refine ⟨p, q, hlistedc.parent_eq, hlistedd.parent_eq, fun i j hi hj => ?_⟩
  rw [hlistedc.length_eq] at hi
  rw [hlistedd.length_eq] at hj
  -- The two moves are about different nodes, which their handles tell apart.
  have hne : u.tag ≠ w.tag := by
    rw [hlistedc.tag_eq, hlistedd.tag_eq]
    intro heq
    have hp := ht.walk_root ▸ hlistedc.mem_walk
    have hq := ht.walk_root ▸ hlistedd.mem_walk
    refine hparents ?_
    rw [hlistedc.parent_eq, hlistedd.parent_eq, ht.eq_of_handle_eq hp hq heq]
  have hu := hlistedc.subtreeAt?_eq
  have hw := hlistedd.subtreeAt?_eq
  obtain ⟨s₁, other', w', hs₁, hnodup₁, hw', hwtag, hlabelled₁, hd'⟩ :=
    hv.carries.exists_moveHandle_moveHandle hne.symm hu hlistedc.getElem?_eq hi hw
      hlistedd.getElem?_eq hj
  obtain ⟨s₂, around', u', hs₂, hnodup₂, hu', hutag, hlabelled₂, hc'⟩ :=
    hv.carries.exists_moveHandle_moveHandle hne hw hlistedd.getElem?_eq hj hu
      hlistedc.getElem?_eq hi
  have hsame : s₁.labelled = s₂.labelled := by
    rw [hlabelled₁, hlabelled₂]
    exact Tree.replaceAt_withMoved_comm hne hv.carries.nodup_tags hu hw hnodup₁ hw' hwtag hnodup₂
      hu' hutag
  exact ⟨s₁, s₂, hs₁, hs₂, hsame, around', other', hsame ▸ hc', hd'⟩

/-- A group is moved to the front of a sum, and so is a term of the sum inside the group. -/
theorem moveHandle_comm_nested :
    let a : Expr := .literal () ⟨['a'], rfl⟩
    let b : Expr := .literal () ⟨['b'], rfl⟩
    let c : Expr := .literal () ⟨['c'], rfl⟩
    let s := ofExpr (.branch () (.chain .plus)
      [a, .branch () .group [.branch () (.chain .plus) [b, c]]]) true
    s.store.parent 11 = some 9 ∧ s.store.parent 8 = some 6 ∧ 11 ∈ s.store.walk 8 ∧
      ∃ s₁ s₂,
        (s.moveHandle (s.store.handle 11) 0).bind
          (fun s' => s'.moveHandle (s.store.handle 8) 0) = some s₁ ∧
        (s.moveHandle (s.store.handle 8) 0).bind
          (fun s' => s'.moveHandle (s.store.handle 11) 0) = some s₂ ∧
        s₁.labelled = s₂.labelled := by
  intro a b c s
  have hterm : s.store.parent 11 = some 9 := by decide +kernel
  have hgroup : s.store.parent 8 = some 6 := by decide +kernel
  obtain ⟨p, q, hp, hq, hmoves⟩ := moveHandle_comm (s := s) (a := 11) (b := 8) .start
    (.inl ⟨_, _, _, rfl⟩) (by decide +kernel) (by decide +kernel) (by decide +kernel)
    (by decide +kernel) (by decide +kernel)
  obtain rfl : p = 9 := Option.some.inj (hp.symm.trans hterm)
  obtain rfl : q = 6 := Option.some.inj (hq.symm.trans hgroup)
  obtain ⟨s₁, s₂, hs₁, hs₂, hsame, -⟩ := hmoves 0 0 (by decide +kernel) (by decide +kernel)
  exact ⟨hterm, hgroup, by decide +kernel, s₁, s₂, hs₁, hs₂, hsame⟩

end Rearrange.Session
