import Rearrange.Proofs.Session.Relocation

namespace Rearrange.Session

/-- The expression of the session with the handle of every node. -/
def labelled (s : Session) : Tree (Option Handle) :=
  s.store.labelled s.root

/-- The session is about a tree with these labels, and the focus is at this place. -/
def Carries (s : Session) (u : Tree (Option Handle)) (place : List Nat) : Prop :=
  ∃ t v, Shows s t v ∧ v.place = place ∧ t.map s.store.handle = u

/-- The two sessions have the same expression with the same handles, and the focus is at the same
place on a node with the same handle. -/
structure Alike (s s' : Session) : Prop where
  labelled_eq : s.labelled = s'.labelled
  handle_focus : s.store.handle s.focus = s'.store.handle s'.focus
  focusPath_eq : s.focusPath = s'.focusPath

/-- A node is the child with an index of another one, whose labels are at a place. -/
structure Listed (s : Session) (a p : NodeId) (around : List Nat) (index : Nat)
    (u : Tree (Option Handle)) : Prop where
  parent_eq : s.store.parent a = some p
  indexInParent_eq : s.store.indexInParent a = .ok index
  mem_walk : p ∈ s.store.walk s.root
  length_eq : (s.store.children p).length = u.children.length
  subtreeAt?_eq : s.labelled.subtreeAt? around = some u
  tag_eq : u.tag = s.store.handle p
  getElem?_eq : (u.children.map Tree.tag)[index]? = some (s.store.handle a)

variable {start s s' : Session} {t d : Tree NodeId} {u p c : Tree (Option Handle)}
  {place around other : List Nat} {index target : Nat}

/-- The labels of a session are the handles of its tree. -/
theorem Invariant.labelled_eq (h : s.Invariant t) : s.labelled = t.map s.store.handle := by
  rw [labelled, ← h.tag_eq, h.owns.labelled_eq]

/-- A session carries its labels and the place that its view has. -/
theorem Shows.carries {v : View} (h : Shows s t v) : s.Carries s.labelled v.place :=
  ⟨t, v, h, rfl, h.invariant.labelled_eq.symm⟩

/-- Every node but the root is a child of another one. -/
theorem Invariant.exists_listed (h : s.Invariant t) (hd : t.subtreeAt? place = some d)
    (hroot : d.tag ≠ s.root) :
    ∃ p around index u, place = around ++ [index] ∧ s.Listed d.tag p around index u := by
  obtain rfl | ⟨around, index, hplace⟩ := List.eq_nil_or_concat place
  · obtain rfl := Option.some.inj hd
    exact absurd h.tag_eq hroot
  rw [List.concat_eq_append] at hplace
  obtain ⟨p, hp, hchild⟩ := Tree.exists_subtreeAt?_of_concat (hplace ▸ hd)
  have howns := h.owns.subtreeAt? hp
  have hparent := howns.parent_eq hchild
  refine ⟨p.tag, around, index, p.map s.store.handle, hplace, ?_⟩
  constructor
  · exact hparent
  · exact Store.indexInParent_eq hparent (howns.idxOf?_eq hchild)
  · rw [h.walk_root]
    exact Tree.tags_subset_of_subtreeAt? hp p.tag_mem_tags
  · rw [howns.holds.children_tag, Tree.children_map, List.length_map, List.length_map]
  · rw [h.labelled_eq]
    exact Tree.subtreeAt?_map_eq_some s.store.handle hp
  · exact Tree.tag_map s.store.handle p
  · rw [Tree.map_tag_children_map, List.getElem?_map, hchild]
    rfl

theorem Carries.labelled_eq (h : s.Carries u place) : s.labelled = u := by
  obtain ⟨t, v, hv, -, rfl⟩ := h
  exact hv.invariant.labelled_eq

/-- The path of the focus is the place that is carried. -/
theorem Carries.focusPath_eq (h : s.Carries u place) : s.focusPath = .ok place := by
  obtain ⟨t, v, hv, rfl, -⟩ := h
  exact hv.focusPath_eq

/-- No handle is given twice. -/
theorem Carries.nodup_tags (h : s.Carries u place) : u.tags.Nodup := by
  obtain ⟨t, v, hv, -, rfl⟩ := h
  exact hv.invariant.handles_nodup

/-- The handle of the focus is the label at its place. -/
theorem Carries.exists_focus (h : s.Carries u place) :
    ∃ c, u.subtreeAt? place = some c ∧ c.tag = s.store.handle s.focus := by
  obtain ⟨t, v, hv, rfl, rfl⟩ := h
  obtain ⟨c, hc, hfocus⟩ := hv.focus_eq
  exact ⟨_, Tree.subtreeAt?_map_eq_some s.store.handle hc, by rw [Tree.tag_map, hfocus]⟩

/-- Sessions with the same labels and place are alike. -/
theorem Carries.alike (h : s.Carries u place) (h' : s'.Carries u place) : s.Alike s' := by
  obtain ⟨c, hc, hfocus⟩ := h.exists_focus
  obtain ⟨c', hc', hfocus'⟩ := h'.exists_focus
  obtain rfl := Option.some.inj (hc.symm.trans hc')
  exact ⟨h.labelled_eq.trans h'.labelled_eq.symm, hfocus.symm.trans hfocus',
    h.focusPath_eq.trans h'.focusPath_eq.symm⟩

/-- Sweeping keeps labels and place. -/
theorem Carries.sweep (h : s.Carries u place) : s.sweep.Carries u place := by
  obtain ⟨t, v, hv, hplace, hlabels⟩ := h
  exact ⟨t, v, hv.sweep, hplace, by rwa [handle_sweep]⟩

/-- A move to a position among the siblings puts the label of the focused node there. -/
theorem Carries.step_moveTo (h : s.Carries u (around ++ [index]))
    (hp : u.subtreeAt? around = some p) (htarget : target < p.children.length) :
    (∃ answer, (s.step (.moveTo target)).result = .ok answer) ∧
      (s.step (.moveTo target)).session.Carries
        (Tree.replaceAt (p.withMoved index target) u around) (around ++ [target]) := by
  obtain ⟨t, v, hv, hplace, rfl⟩ := h
  rw [Tree.subtreeAt?_map, Option.map_eq_some_iff] at hp
  obtain ⟨q, hq, rfl⟩ := hp
  rw [Tree.children_map, List.length_map] at htarget
  obtain ⟨hok, -, t', -, d, hinvariant, hlabels, -, hd, hfocus⟩ := hv.step_moveTo hplace hq htarget
  have hshows : Shows (s.step (.moveTo target)).session t'
      ⟨t'.erase, around ++ [target], (s.step (.moveTo target)).session.history⟩ :=
    ⟨hinvariant, rfl, ⟨d, hd, hfocus⟩, rfl⟩
  exact ⟨hok, t', _, hshows, rfl, hlabels⟩

/-- A move to a position that is not there changes nothing. -/
theorem Carries.step_moveTo_of_not (h : s.Carries u (around ++ [index]))
    (hp : u.subtreeAt? around = some p) {position : Int}
    (hposition : ¬ (0 ≤ position ∧ position < p.children.length)) :
    (s.step (.moveTo position)).session.Carries u (around ++ [index]) := by
  have hcarries := h
  obtain ⟨t, v, hv, hplace, rfl⟩ := h
  rw [Tree.subtreeAt?_map, Option.map_eq_some_iff] at hp
  obtain ⟨q, hq, rfl⟩ := hp
  rw [Tree.children_map, List.length_map, ← hv.admits_iff hplace hq] at hposition
  have hlacks : s.Lacks (.moveTo position) := hposition
  rw [step, hv.session_of_fails (hv.fails_perform_iff.mpr hlacks)]
  exact hcarries.sweep

/-- A path to a node focuses it. -/
theorem Carries.step_selectPath (h : s.Carries u place) (hc : u.subtreeAt? other = some c) :
    (∃ answer, (s.step (.selectPath (other.map Int.ofNat))).result = .ok answer) ∧
      (s.step (.selectPath (other.map Int.ofNat))).session.Carries u other := by
  obtain ⟨t, v, hv, -, rfl⟩ := h
  rw [Tree.subtreeAt?_map, Option.map_eq_some_iff] at hc
  obtain ⟨d, hd, rfl⟩ := hc
  have hselected : s.perform (.selectPath (other.map Int.ofNat)) =
      ⟨.ok (.focused (s.label d.tag)), { s with focus := d.tag }, []⟩ := by
    rw [perform, selectPath, hv.invariant.nodeAt_eq hd]
    rfl
  have hcarries : Carries { s with focus := d.tag } (t.map s.store.handle) other :=
    ⟨t, _, hv.refocus hd, rfl, rfl⟩
  rw [step, hselected]
  exact ⟨⟨_, rfl⟩, hcarries.sweep⟩

end Rearrange.Session
