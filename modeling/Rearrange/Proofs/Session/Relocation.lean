import Rearrange.Proofs.Session.Failure
import Rearrange.Proofs.Store.Entry

namespace Rearrange.Session

/-- The second session comes of the first one by putting the focused node, the child with an index
of a node at a place, at another position among its siblings. Nodes are told apart by their
handles. -/
structure Relocates (s s' : Session) (p : NodeId) (place : List Nat) (index target : Nat) :
    Prop where
  root_eq : s'.root = s.root
  nodeAt_place : s'.store.nodeAt s'.root (place.map Int.ofNat) = .ok p
  entry_around : s'.store.entry p = { s.store.entry p with
    children := ((s.store.entry p).children.eraseIdx index).insertIdx target
      (s.store.handle s.focus) }
  entry_of_ne : ∀ x ∈ s.store.walk s.root, x ≠ p →
    ∃ y, s'.store.find? s'.root (s.store.handle x) = some y ∧ s'.store.entry y = s.store.entry x
  handles_perm : s'.handles.Perm s.handles
  handle_focus : s'.store.handle s'.focus = s.store.handle s.focus
  nodeAt_focus : s'.store.nodeAt s'.root ((place ++ [target]).map Int.ofNat) = .ok s'.focus
  focusPath_eq : s'.focusPath = .ok (place ++ [target])
  history_eq : s'.history = s.history
  nextHandle_eq : s'.nextHandle = s.nextHandle

variable {start s s' : Session} {t t' p p' c d : Tree NodeId} {v : View} {place : List Nat}
  {index target : Nat}

/-- A place in the tree leads to its node. -/
theorem Invariant.nodeAt_eq (h : s.Invariant t) (hp : t.subtreeAt? place = some p) :
    s.store.nodeAt s.root (place.map Int.ofNat) = .ok p.tag := by
  rw [Store.nodeAt, ← h.tag_eq, h.owns.nodeFrom_eq, Tree.followFrom_natCast 0 hp]
  rfl

/-- The handles of a session are those of its tree in order. -/
theorem Invariant.handles_eq (h : s.Invariant t) : s.handles = (t.map s.store.handle).tags := by
  rw [handles, h.walk_root, Tree.tags_map]

/-- What a node is known by can be read off the tree. -/
theorem Invariant.entry_eq (h : s.Invariant t) (hp : t.subtreeAt? place = some p) :
    s.store.entry p.tag = (p.map s.store.handle).entry :=
  (h.owns.subtreeAt? hp).entry_eq

/-- What the labels of the tree show at a place, the node with the handle there shows. -/
theorem Invariant.exists_find?_entry (h : s.Invariant t) {u : Tree (Option Handle)}
    (hu : (t.map s.store.handle).subtreeAt? place = some u) :
    ∃ y, s.store.find? s.root u.tag = some y ∧ s.store.entry y = u.entry := by
  rw [Tree.subtreeAt?_map, Option.map_eq_some_iff] at hu
  obtain ⟨p, hp, rfl⟩ := hu
  refine ⟨p.tag, ?_, h.entry_eq hp⟩
  rw [Tree.tag_map, ← h.tag_eq]
  exact h.find?_handle t.subtreeAt?_nil (Tree.tags_subset_of_subtreeAt? hp p.tag_mem_tags)

/-- Putting a child of a node elsewhere leaves all other nodes as they were. -/
theorem Invariant.exists_find?_of_ne (h : s.Invariant t) (h' : s'.Invariant t')
    (hp : t.subtreeAt? place = some p) (htarget : target < p.children.length)
    (hlabels : t'.map s'.store.handle =
      Tree.replaceAt ((p.map s.store.handle).withMoved index target) (t.map s.store.handle) place)
    {x : NodeId} (hx : x ∈ s.store.walk s.root) (hne : x ≠ p.tag) :
    ∃ y, s'.store.find? s'.root (s.store.handle x) = some y ∧
      s'.store.entry y = s.store.entry x := by
  rw [h.walk_root] at hx
  obtain ⟨other, u, hu, rfl⟩ := Tree.exists_subtreeAt?_of_mem_tags hx
  have hplaced := Tree.subtreeAt?_map_eq_some s.store.handle hp
  have hlabelled := Tree.subtreeAt?_map_eq_some s.store.handle hu
  have hother : (u.map s.store.handle).tag ≠ (p.map s.store.handle).tag := by
    rw [Tree.tag_map, Tree.tag_map]
    intro heq
    exact hne (h.eq_of_handle_eq hx (Tree.tags_subset_of_subtreeAt? hp p.tag_mem_tags) heq)
  have hperm : ((p.map s.store.handle).withMoved index target).children.Perm
      (p.map s.store.handle).children :=
    Tree.children_withMoved_perm index (by rwa [Tree.children_map, List.length_map])
  obtain ⟨other', u', hu', hentry⟩ := Tree.exists_entry_eq_replaceAt hplaced
    ((p.map s.store.handle).tag_withMoved index target) hperm hlabelled hother
  rw [← hlabels] at hu'
  obtain ⟨y, hy, hshown⟩ := h'.exists_find?_entry hu'
  have htag : u'.tag = s.store.handle u.tag :=
    (congrArg Entry.tag hentry).trans (Tree.tag_map _ u)
  exact ⟨y, htag ▸ hy, by rw [hshown, hentry, ← h.entry_eq hu]⟩

/-- What becomes of the nodes can be told from the labels of the tree. -/
theorem Invariant.relocates (h : s.Invariant t) (h' : s'.Invariant t')
    (hp : t.subtreeAt? place = some p) (hc : p.children[index]? = some c)
    (hfocus : c.tag = s.focus) (htarget : target < p.children.length)
    (hkept : s'.root = s.root ∧ s'.history = s.history ∧ s'.nextHandle = s.nextHandle)
    (hlabels : t'.map s'.store.handle =
      Tree.replaceAt ((p.map s.store.handle).withMoved index target) (t.map s.store.handle) place)
    (hp' : t'.subtreeAt? place = some p' ∧ p'.tag = p.tag)
    (hd : t'.subtreeAt? (place ++ [target]) = some d) (hfocus' : d.tag = s'.focus) :
    Relocates s s' p.tag place index target := by
  obtain ⟨hroot, hhistory, hnext⟩ := hkept
  obtain ⟨hp', htag⟩ := hp'
  let labelled := p.map s.store.handle
  have hplaced : (t.map s.store.handle).subtreeAt? place = some labelled :=
    Tree.subtreeAt?_map_eq_some s.store.handle hp
  -- The node above the moved one is found by its place, and its labels are those of the placement.
  have hmoved : p'.map s'.store.handle = labelled.withMoved index target := by
    have hreplaced := Tree.subtreeAt?_replaceAt hplaced (labelled.withMoved index target)
    rw [← hlabels, Tree.subtreeAt?_map, hp'] at hreplaced
    exact Option.some.inj hreplaced
  have hchild : labelled.children[index]? = some (c.map s.store.handle) := by
    rw [Tree.children_map, List.getElem?_map, hc]
    rfl
  have hroom : target < labelled.children.length := by rwa [Tree.children_map, List.length_map]
  have hfound : (d.map s'.store.handle).tag = (c.map s.store.handle).tag := by
    obtain ⟨hindex, hget⟩ := List.getElem?_eq_some_iff.mp hchild
    have hplacement := getElem?_moveElement hindex hroom
    rw [hget, ← Tree.children_withMoved, ← hmoved, Tree.children_map, List.getElem?_map,
      ← Tree.subtreeAt?_concat hp', hd] at hplacement
    exact congrArg Tree.tag (Option.some.inj hplacement)
  constructor
  · exact hroot
  · rw [h'.nodeAt_eq hp', htag]
  · rw [← htag, h'.entry_eq hp', hmoved, Tree.entry_withMoved hchild, htag, h.entry_eq hp,
      Tree.tag_map, hfocus]
  · intro x hx hne
    exact h.exists_find?_of_ne h' hp htarget hlabels hx hne
  · rw [h'.handles_eq, h.handles_eq, hlabels]
    exact (Tree.Rearranged.replaceAt hplaced
      (labelled.rearranged_withMoved index hroom)).tags_perm.symm
  · rwa [Tree.tag_map, Tree.tag_map, hfocus, hfocus'] at hfound
  · rw [h'.nodeAt_eq hd, hfocus']
  · rw [focusPath, ← hfocus']
    exact h'.owns.childPath_eq (h'.tag_eq ▸ h'.parent_root) hd
  · exact hhistory
  · exact hnext

/-- A move to a position that there is succeeds. The labels are then those of the placement, and the
focus is the child at the position. -/
theorem Shows.step_moveTo (h : Shows s t v) (hplace : v.place = place ++ [index])
    (hp : t.subtreeAt? place = some p) (htarget : target < p.children.length) :
    let o := s.step (.moveTo target)
    (∃ answer, o.result = .ok answer) ∧
      (o.session.root = s.root ∧ o.session.history = s.history ∧
        o.session.nextHandle = s.nextHandle) ∧
      ∃ t' p' d, o.session.Invariant t' ∧
        t'.map o.session.store.handle = Tree.replaceAt
          ((p.map s.store.handle).withMoved index target) (t.map s.store.handle) place ∧
        (t'.subtreeAt? place = some p' ∧ p'.tag = p.tag) ∧
        t'.subtreeAt? (place ++ [target]) = some d ∧ d.tag = o.session.focus := by
  intro o
  obtain ⟨f, cs, hoffers⟩ := h.exists_offers hplace hp
  obtain ⟨⟨hresult, -⟩, ⟨hroot, hhistory, hnext, -⟩,
    t', q, d, hinvariant, hlabels, hq, hd, hfocus⟩ := hoffers.moveTo_spec h htarget
  have hhandle : o.session.store.handle = (s.moveTo target).session.store.handle :=
    handle_sweep _
  rw [← hhandle] at hlabels
  have hok : ∃ answer, o.result = .ok answer := by
    simp only [o, Session.step, Session.perform, Outcome.map, hresult]
    exact ⟨_, rfl⟩
  exact ⟨hok, ⟨hroot, hhistory, hnext⟩, t', q, d, hinvariant.sweep, hlabels, hq, hd, hfocus⟩

/-- A move to a position that there is puts the focused node there. -/
theorem Shows.relocates (h : Shows s t v) (hplace : v.place = place ++ [index])
    (hp : t.subtreeAt? place = some p) (hc : p.children[index]? = some c)
    (hfocus : c.tag = s.focus) (hadmits : s.Admits target) :
    (∃ answer, (s.step (.moveTo target)).result = .ok answer) ∧
      s.Relocates (s.step (.moveTo target)).session p.tag place index target := by
  have htarget : target < p.children.length :=
    Int.ofNat_lt.mp ((h.admits_iff hplace hp).mp hadmits).2
  obtain ⟨hok, hkept, t', q, d, hinvariant, hlabels, hq, hd, hfocus'⟩ :=
    h.step_moveTo hplace hp htarget
  exact ⟨hok, h.invariant.relocates hinvariant hp hc hfocus htarget hkept hlabels hq hd hfocus'⟩

/-- In a session that commands lead to, the focused node can be moved to every position among the
children of the node above it. The move leaves that node where it is and puts its child with the
focused node's handle at the position; every other node keeps what it is and what its children are,
and the focus is on the moved node. -/
theorem relocates_moveTo (h : Reachable start s) (hstart : start.Starts)
    (hfocus : s.focus ≠ s.root) :
    ∃ p place index, s.store.parent s.focus = some p ∧
      s.store.nodeAt s.root (place.map Int.ofNat) = .ok p ∧
      s.store.indexInParent s.focus = .ok index ∧ s.focusPath = .ok (place ++ [index]) ∧
      ∀ target : Nat, target < (s.store.children p).length →
        (∃ answer, (s.step (.moveTo target)).result = .ok answer) ∧
          s.Relocates (s.step (.moveTo target)).session p place index target := by
  obtain ⟨t, ht⟩ := h.exists_invariant hstart
  obtain ⟨v, hv⟩ := ht.exists_shows
  obtain ⟨c, hc, htag⟩ := hv.focus_eq
  obtain hplace | ⟨place, index, hplace⟩ := List.eq_nil_or_concat v.place
  · rw [hplace] at hc
    obtain rfl := Option.some.inj hc
    exact absurd (htag.symm.trans ht.tag_eq) hfocus
  · rw [List.concat_eq_append] at hplace
    rw [hplace] at hc
    obtain ⟨p, hp, hchild⟩ := Tree.exists_subtreeAt?_of_concat hc
    have howns := ht.owns.subtreeAt? hp
    have hparent := howns.parent_eq hchild
    have hindex := Store.indexInParent_eq hparent (howns.idxOf?_eq hchild)
    rw [htag] at hparent hindex
    refine ⟨p.tag, place, index, hparent, ht.nodeAt_eq hp, hindex, hplace ▸ hv.focusPath_eq, ?_⟩
    intro target htarget
    have hadmits : s.Admits target :=
      ⟨hfocus, p.tag, hparent, Int.natCast_nonneg target, Int.ofNat_lt.mpr htarget⟩
    exact hv.relocates hplace hp hchild htag hadmits

/-- The last of three terms of a sum, the first of which is equal to it, is moved to the front. -/
theorem relocates_moveTo_equal_terms :
    let a : Expr := .literal () ⟨['a'], rfl⟩
    let b : Expr := .literal () ⟨['b'], rfl⟩
    let start := ofExpr (.branch () .group [.branch () (.chain .plus) [a, b, a]]) true
    let s := (step { start with reparse := true } (.selectPath [0, 2])).session
    s.focus ≠ s.root ∧ (∃ answer, (s.step (.moveTo 0)).result = .ok answer) ∧
      s.Relocates (s.step (.moveTo 0)).session 6 [0] 2 0 := by
  intro a b start s
  have hreachable : Reachable start s := .step .start true (.selectPath [0, 2])
  have hfocus : s.focus ≠ s.root := by decide +kernel
  obtain ⟨p, place, index, hparent, -, -, hpath, hmove⟩ :=
    relocates_moveTo hreachable (.inl ⟨_, _, _, rfl⟩) hfocus
  have haround : s.store.parent s.focus = some 6 := by decide +kernel
  have hplaces : s.focusPath.toOption = some [0, 2] := by decide +kernel
  rw [hpath] at hplaces
  obtain rfl : p = 6 := Option.some.inj (hparent.symm.trans haround)
  obtain ⟨rfl, hlast⟩ := List.append_inj' (Option.some.inj hplaces : _ = [0] ++ [2]) rfl
  obtain rfl : index = 2 := by simpa using hlast
  exact ⟨hfocus, hmove 0 (by decide +kernel)⟩

end Rearrange.Session
