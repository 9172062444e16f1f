import Rearrange.Proofs.Store.Number
import Rearrange.Proofs.Store.Plant
import Rearrange.Proofs.Store.Upward

namespace Rearrange.Store

open Relation (ReflTransGen)

/-- No way down leads from a node to one of the kept nodes; in particular it is none of them. -/
def Avoids (s : Store) (kept : List NodeId) (id : NodeId) : Prop :=
  ∀ n ∈ kept, ¬ ReflTransGen s.Lists id n

/-- Only kept nodes list a kept node: no larger tree has the kept nodes in it. -/
def StandsAlone (s : Store) (kept : List NodeId) : Prop :=
  ∀ p, ∀ c ∈ s.children p, c ∈ kept → p ∈ kept

/-- What can be done with nodes that are not to be kept as they are, while no kept node is attached,
neither itself nor with a tree that it stands in. A flattening reaches all nodes below the one that
it begins at, so none of these may be kept. -/
inductive EditBeside (kept : List NodeId) (s : Store) : Store → Prop where
  | make {kind : Kind} {given : Datum} {cs : List NodeId} {handle : Option Handle} {id : NodeId}
      {s' : Store} (hcs : ∀ c ∈ cs, s.Avoids kept c)
      (h : s.make kind given cs handle = .ok (id, s')) : EditBeside kept s s'
  | addChild {id child : NodeId} {s' : Store} (hid : id ∉ kept) (hchild : s.Avoids kept child)
      (h : s.addChild id child = .ok s') : EditBeside kept s s'
  | setChildren {id : NodeId} {cs : List NodeId} {s' : Store} (hid : id ∉ kept)
      (hcs : ∀ c ∈ cs, s.Avoids kept c) (h : s.setChildren id cs = .ok s') : EditBeside kept s s'
  | flatten {id : NodeId} (hid : s.Avoids kept id) : EditBeside kept s (s.flatten id)
  | setHandle {id : NodeId} (hid : id ∉ kept) (handle : Option Handle) :
      EditBeside kept s (s.setHandle id handle)
  | sweep (roots : List NodeId) : EditBeside kept s (s.sweep roots)

/-- What an edit beside kept nodes leaves alone: their contents and their handles, and the nodes
that no way down leads from to them. -/
structure LeavesAlone (kept : List NodeId) (s s' : Store) : Prop where
  size_le : s.size ≤ s'.size
  content_eq : ∀ n ∈ kept, (s'.cell n).content = (s.cell n).content
  handle_eq : ∀ n ∈ kept, s'.handle n = s.handle n
  avoids : ∀ id, s.Avoids kept id → s'.Avoids kept id

/-- What copying comes to: a tree that shows the same expression and has no parent, made of new
nodes only, each of which is listed once, by the node that it remembers as its parent. Its handles
in order are the given ones, and whatever was there is as it was, with its children, its handle and
its parent. -/
structure CopiedAt (s s' : Store) (source copy : NodeId) (handles : List (Option Handle)) :
    Prop where
  expr_eq : s'.expr copy = s.expr source
  parent_eq : s'.parent copy = none
  fresh : ∀ n ∈ s'.walk copy, s.size ≤ n
  nodup_walk : (s'.walk copy).Nodup
  listed_perm : (copy :: (s'.walk copy).flatMap s'.children).Perm (s'.walk copy)
  linked : ∀ n ∈ s'.walk copy, ∀ c ∈ s'.children n, s'.parent c = some n
  handles_eq : (s'.walk copy).map s'.handle = handles
  cell_eq : ∀ n, n < s.size → s'.cell n = s.cell n

/-- Whatever is done with the nodes of one tree, and with other nodes beside another tree, leaves
that other tree and its handles unchanged. Nodes that have none of its nodes below them stay so;
where it is not part of a larger tree, these are all nodes but its own, then and ever after. -/
structure IndependentOf (s : Store) (one other : NodeId) : Prop where
  avoids : ∀ n ∈ s.walk one, s.Avoids (s.walk other) n
  unchanged : ∀ s', ReflTransGen (EditBeside (s.walk other)) s s' →
    s'.tree other = s.tree other ∧ s'.labelled other = s.labelled other ∧
      ∀ n, s.Avoids (s.walk other) n → s'.Avoids (s.walk other) n
  avoids_iff : s.StandsAlone (s.walk other) → ∀ s', ReflTransGen (EditBeside (s.walk other)) s s' →
    ∀ n, s'.Avoids (s.walk other) n ↔ n ∉ s.walk other

variable {s s' s'' : Store} {kept : List NodeId} {id c : NodeId} {t u : Tree NodeId}

/-- A node that leads to no kept one is not kept itself. -/
theorem Avoids.notMem (h : s.Avoids kept id) : id ∉ kept :=
  fun hid => h id hid .refl

/-- The children of a node lead nowhere that the node does not lead. -/
theorem Avoids.of_lists (h : s.Avoids kept id) (hc : c ∈ s.children id) : s.Avoids kept c :=
  fun n hn hdown => h n hn (.head hc hdown)

/-- Nodes of which none is kept have no way to the kept ones if they list only each other. -/
theorem avoids_of_closed {P : NodeId → Prop} (hP : ∀ n, P n → n ∉ kept)
    (hclosed : ∀ p, P p → ∀ c ∈ s.children p, P c) (hid : P id) : s.Avoids kept id := by
  -- The induction follows the way down, on which the property is kept.
  have hbelow : ∀ n, ReflTransGen s.Lists id n → P n := by
    intro n hdown
    induction hdown with
    | refl => exact hid
    | tail _ hlists ih => exact hclosed _ ih _ hlists
  exact fun n hn hdown => hP n (hbelow n hdown) hn

/-- Where the kept nodes stand alone, no other node leads to them. -/
theorem StandsAlone.avoids_iff (h : s.StandsAlone kept) : s.Avoids kept id ↔ id ∉ kept := by
  refine ⟨Avoids.notMem, fun hid => ?_⟩
  have hclosed : ∀ p, p ∉ kept → ∀ c ∈ s.children p, c ∉ kept := fun p hp c hc hkept =>
    hp (h p c hc hkept)
  exact avoids_of_closed (fun _ hn => hn) hclosed hid

theorem LeavesAlone.refl (kept : List NodeId) (s : Store) : s.LeavesAlone kept s :=
  ⟨Nat.le_refl _, fun _ _ => rfl, fun _ _ => rfl, fun _ hid => hid⟩

theorem LeavesAlone.trans (h : s.LeavesAlone kept s') (h' : s'.LeavesAlone kept s'') :
    s.LeavesAlone kept s'' :=
  ⟨Nat.le_trans h.size_le h'.size_le, fun n hn => (h'.content_eq n hn).trans (h.content_eq n hn),
    fun n hn => (h'.handle_eq n hn).trans (h.handle_eq n hn),
    fun id hid => h'.avoids id (h.avoids id hid)⟩

/-- Nodes without a way to the kept ones stay so if they are given such nodes as children only. -/
theorem LeavesAlone.of_children (hsize : s.size ≤ s'.size)
    (hcontent : ∀ n ∈ kept, (s'.cell n).content = (s.cell n).content)
    (hhandle : ∀ n ∈ kept, s'.handle n = s.handle n)
    (hchildren : ∀ p, s.Avoids kept p → ∀ c ∈ s'.children p, s.Avoids kept c) :
    s.LeavesAlone kept s' :=
  ⟨hsize, hcontent, hhandle, fun _ hid => avoids_of_closed (fun _ hn => hn.notMem) hchildren hid⟩

/-- A store of the same contents differs in handles and parents only. -/
theorem LeavesAlone.of_contents (hsize : s.size ≤ s'.size)
    (hcontent : ∀ n, (s'.cell n).content = (s.cell n).content)
    (hhandle : ∀ n ∈ kept, s'.handle n = s.handle n) : s.LeavesAlone kept s' := by
  refine .of_children hsize (fun n _ => hcontent n) hhandle fun p hp c hc => ?_
  rw [Store.children, hcontent p] at hc
  exact hp.of_lists hc

/-- Writing the content of a node that is not kept leaves the kept ones alone. -/
private theorem leavesAlone_modify_adopt (hid : id ∉ kept) (f : Cell → Content)
    (hf : s.Avoids kept id → ∀ c ∈ (f (s.cell id)).children, s.Avoids kept c) (cs : List NodeId) :
    s.LeavesAlone kept ((s.modify id fun c => { c with content := f c }).adopt id cs) := by
  have hcontent : ∀ n,
      ((((s.modify id fun c => { c with content := f c }).adopt id cs).cell n).content =
        if n = id ∧ n < s.size then f (s.cell n) else (s.cell n).content) := by
    intro n
    rw [content_adopt, cell_modify]
    split <;> rfl
  refine .of_children (by rw [size_adopt, size_modify]) (fun n hn => ?_) (fun n _ => ?_)
    fun p hp c hc => ?_
  · rw [hcontent, if_neg]
    rintro ⟨rfl, -⟩
    exact hid hn
  · rw [handle_adopt, handle, cell_modify]
    split <;> rfl
  · rw [Store.children, hcontent] at hc
    split at hc
    · next heq =>
      obtain ⟨rfl, -⟩ := heq
      exact hf hp c hc
    · exact hp.of_lists hc

private theorem mem_of_mem_children_withChildren {content : Content} {cs : List NodeId}
    (hc : c ∈ (content.withChildren cs).children) : c ∈ cs := by
  cases content with
  | literal l => cases hc
  | branch shape ds => exact hc

/-- New children for another node leave the kept ones alone. -/
theorem leavesAlone_relink (hid : id ∉ kept) {cs : List NodeId} (hcs : ∀ c ∈ cs, s.Avoids kept c) :
    s.LeavesAlone kept (s.relink id cs) :=
  leavesAlone_modify_adopt hid (fun c => c.content.withChildren cs)
    (fun _ c hc => hcs c (mem_of_mem_children_withChildren hc)) cs

/-- Children that are taken over by another node leave the kept ones alone. -/
theorem leavesAlone_absorb (hid : s.Avoids kept id) : s.LeavesAlone kept (s.absorb id) := by
  rw [absorb]
  split
  · refine leavesAlone_relink hid.notMem fun c hc => ?_
    obtain ⟨d, hd, hc⟩ := List.mem_flatMap.mp hc
    have hbelow := hid.of_lists hd
    split at hc
    · exact hbelow.of_lists hc
    · exact List.mem_singleton.mp hc ▸ hbelow
  · exact .refl kept s

/-- Flattening writes only nodes below the one that it begins at. -/
theorem leavesAlone_flattenWithin (depth : Nat) (hid : s.Avoids kept id) :
    s.LeavesAlone kept (s.flattenWithin depth id) := by
  induction depth generalizing s id with
  | zero => exact .refl kept s
  | succ depth ih =>
    have hall : ∀ {cs : List NodeId} {s : Store}, (∀ c ∈ cs, s.Avoids kept c) →
        s.LeavesAlone kept (cs.foldl (flattenWithin depth) s) := by
      intro cs
      induction cs with
      | nil => exact fun _ => .refl kept _
      | cons c cs ihcs =>
        intro s hcs
        obtain ⟨hc, hcs⟩ := List.forall_mem_cons.mp hcs
        have hfirst := ih hc
        exact hfirst.trans (ihcs fun d hd => hfirst.avoids d (hcs d hd))
    have hbelow := hall fun c hc => hid.of_lists hc
    rw [flattenWithin]
    exact hbelow.trans (leavesAlone_absorb (hbelow.avoids id hid))

/-- A new node lists the given ones, and it is none of those that are there. -/
private theorem leavesAlone_push_adopt (hkept : ∀ n ∈ kept, n < s.size) {cell : Cell}
    (hcs : ∀ c ∈ cell.content.children, s.Avoids kept c) (cs : List NodeId) :
    s.LeavesAlone kept ((s.push cell).adopt s.size cs) := by
  refine .of_children (by rw [size_adopt, size_push]; omega) (fun n hn => ?_) (fun n hn => ?_)
    fun p hp c hc => ?_
  · rw [content_adopt, cell_push_of_lt (hkept n hn)]
  · rw [handle_adopt, handle, cell_push_of_lt (hkept n hn), handle]
  · have hlt := lt_size_of_mem_children hc
    rw [size_adopt, size_push] at hlt
    rw [Store.children, content_adopt] at hc
    obtain hlt | rfl := Nat.lt_succ_iff_lt_or_eq.mp hlt
    · rw [cell_push_of_lt hlt] at hc
      exact hp.of_lists hc
    · rw [cell_push_size] at hc
      exact hcs c hc

/-- A node that is made of others leaves the kept ones alone. -/
private theorem leavesAlone_make (hkept : ∀ n ∈ kept, n < s.size) {kind : Kind} {given : Datum}
    {cs : List NodeId} (hcs : ∀ c ∈ cs, s.Avoids kept c) {handle : Option Handle}
    (h : s.make kind given cs handle = .ok (id, s')) : s.LeavesAlone kept s' := by
  obtain ⟨content, hsubset, rfl⟩ := exists_of_make h
  exact leavesAlone_push_adopt hkept (fun c hc => hcs c (hsubset hc)) content.children

/-- A child that is added to another node leaves the kept ones alone. -/
private theorem leavesAlone_addChild (hid : id ∉ kept) (hc : s.Avoids kept c)
    (h : s.addChild id c = .ok s') : s.LeavesAlone kept s' := by
  obtain ⟨-, rfl⟩ := exists_of_addChild h
  refine leavesAlone_modify_adopt hid
    (fun cell => cell.content.withChildren (cell.content.children ++ [c]))
    (fun havoids d hd => ?_) [c]
  obtain hd | hd := List.mem_append.mp (mem_of_mem_children_withChildren hd)
  · exact havoids.of_lists hd
  · exact List.mem_singleton.mp hd ▸ hc

/-- Children that are given to another node leave the kept ones alone. -/
private theorem leavesAlone_setChildren (hid : id ∉ kept) {cs : List NodeId}
    (hcs : ∀ c ∈ cs, s.Avoids kept c) (h : s.setChildren id cs = .ok s') :
    s.LeavesAlone kept s' := by
  obtain ⟨-, rfl⟩ | rfl := eq_of_setChildren h
  · exact .refl kept s'
  · exact leavesAlone_relink hid hcs

/-- A handle that another node is given leaves the kept ones alone. -/
private theorem leavesAlone_setHandle (hid : id ∉ kept) (handle : Option Handle) :
    s.LeavesAlone kept (s.setHandle id handle) := by
  refine .of_contents (Nat.le_of_eq (size_setHandle s id handle).symm)
    (content_setHandle s id handle) fun n hn => handle_setHandle_of_ne handle ?_
  rintro rfl
  exact hid hn

/-- Each edit beside kept nodes leaves them alone. -/
theorem EditBeside.leavesAlone (h : EditBeside kept s s') (hkept : ∀ n ∈ kept, n < s.size) :
    s.LeavesAlone kept s' := by
  cases h with
  | make hcs h => exact leavesAlone_make hkept hcs h
  | addChild hid hchild h => exact leavesAlone_addChild hid hchild h
  | setChildren hid hcs h => exact leavesAlone_setChildren hid hcs h
  | flatten hid => exact leavesAlone_flattenWithin s.size hid
  | setHandle hid handle => exact leavesAlone_setHandle hid handle
  | sweep roots =>
    exact .of_contents (Nat.le_of_eq (size_sweep s roots).symm) (content_sweep s roots)
      fun n _ => handle_sweep s roots n

/-- Edits beside kept nodes leave them alone, however many there are. -/
theorem leavesAlone_of_reflTransGen (h : ReflTransGen (EditBeside kept) s s')
    (hkept : ∀ n ∈ kept, n < s.size) : s.LeavesAlone kept s' := by
  induction h with
  | refl => exact .refl kept s
  | tail _ hedit ih =>
    exact ih.trans (hedit.leavesAlone fun n hn => Nat.lt_of_lt_of_le (hkept n hn) ih.size_le)

/-- A held tree is independent of another one if no node of the two is the same. -/
theorem Holds.independentOf (ht : s.Holds t) (hu : s.Holds u)
    (hdisjoint : ∀ n ∈ t.tags, n ∉ u.tags) : s.IndependentOf t.tag u.tag := by
  have halone : ∀ {s'}, ReflTransGen (EditBeside u.tags) s s' → s.LeavesAlone u.tags s' :=
    fun hedits => leavesAlone_of_reflTransGen hedits fun _ => hu.lt_size
  constructor
  · rw [ht.walk_eq, hu.walk_eq]
    intro n hn
    exact avoids_of_closed hdisjoint (fun p hp c hc => ht.mem_of_mem_children hp hc) hn
  · intro s' hedits
    rw [hu.walk_eq] at hedits ⊢
    have hu' := hu.congr (halone hedits).size_le (halone hedits).content_eq
    refine ⟨hu'.tree_eq.trans hu.tree_eq.symm, ?_, (halone hedits).avoids⟩
    rw [hu'.labelled_eq, hu.labelled_eq]
    exact Tree.map_congr_left (halone hedits).handle_eq
  · intro hstands s' hedits n
    rw [hu.walk_eq] at hstands hedits ⊢
    exact ⟨Avoids.notMem, fun hn => (halone hedits).avoids n (hstands.avoids_iff.mpr hn)⟩

/-- Planting the labels of a tree makes a copy of it. -/
theorem Holds.copiedAt_plant (h : s.Holds t) (f : Option Handle → Option Handle) :
    s.CopiedAt (s.plant ((s.labelled t.tag).map f)) t.tag s.size
      ((s.walk t.tag).map fun n => f (s.handle n)) := by
  let planted := (s.labelled t.tag).map f
  have howns := owns_plant s planted
  have hwalk := howns.walk_eq
  rw [Tree.tag_numbered] at hwalk
  have hexpr := howns.expr_eq
  rw [Tree.tag_numbered] at hexpr
  have hlisted := howns.holds.listed_perm
  rw [Tree.tag_numbered] at hlisted
  constructor
  · rw [hexpr, erase_numbered_size, Tree.erase_map, h.labelled_eq, Tree.erase_map, h.expr_eq]
  · exact parent_plant s planted
  · intro n hn
    rw [hwalk] at hn
    exact Tree.le_of_mem_tags_numbered hn
  · exact hwalk ▸ howns.nodup
  · exact hwalk ▸ hlisted
  · exact hwalk ▸ howns.linked
  · rw [hwalk, ← Tree.tags_map, map_handle_plant, Tree.tags_map, h.labelled_eq, Tree.tags_map,
      h.walk_eq, List.map_map]
    rfl
  · exact fun n hn => cell_plant_of_lt hn

/-- A planted tree and a tree that was there before are independent of each other. -/
theorem Holds.independentOf_plant (h : s.Holds t) (planted : Tree (Option Handle)) :
    (s.plant planted).IndependentOf t.tag s.size ∧
      (s.plant planted).IndependentOf s.size t.tag := by
  have hplanted := (owns_plant s planted).holds
  have ht : (s.plant planted).Holds t := by
    refine h.congr (by rw [size_plant]; exact Nat.le_add_right _ _) fun n hn => ?_
    rw [cell_plant_of_lt (h.lt_size hn)]
  have hdisjoint : ∀ n ∈ t.tags, n ∉ (planted.numbered s.size).tags := fun n hn hnew =>
    Nat.not_le_of_lt (h.lt_size hn) (Tree.le_of_mem_tags_numbered hnew)
  have hforth := ht.independentOf hplanted hdisjoint
  have hback := hplanted.independentOf ht fun n hnew hn => hdisjoint n hn hnew
  rw [Tree.tag_numbered] at hforth hback
  exact ⟨hforth, hback⟩

/-- No node but its own lists a node of a planted tree. -/
theorem standsAlone_plant (hlisted : ∀ p, ∀ c ∈ s.children p, c < s.size)
    (planted : Tree (Option Handle)) :
    (s.plant planted).StandsAlone ((s.plant planted).walk s.size) := by
  have hwalk := (owns_plant s planted).walk_eq
  rw [Tree.tag_numbered, Tree.tags_numbered] at hwalk
  intro p c hc hnew
  rw [hwalk, List.mem_range'_1] at hnew ⊢
  have hp := lt_size_of_mem_children hc
  rw [size_plant] at hp
  refine ⟨?_, hp⟩
  by_contra hold
  rw [Store.children, cell_plant_of_lt (Nat.lt_of_not_le hold)] at hc
  exact absurd (hlisted p c hc) (Nat.not_lt_of_le hnew.1)

/-- Both ways to copy a tree make a tree of new nodes that shows the same expression, stands by
itself and has no node in two places, even where the nodes of the tree do or where it is part of a
larger one. The handles of the copy are none, or those of the tree, and nothing that was there has
changed. Afterwards neither of the two sees what is done with the other, nor with anything beside
it, unless a node is attached that has one of its own nodes below it. Below nodes that do not belong
to the copy there are none of the copy, provided that no node lists one that was not made. -/
theorem copies_stand_alone (h : s.Holds t) :
    s.CopiedAt (s.copy t.tag).2 t.tag (s.copy t.tag).1 ((s.walk t.tag).map fun _ => none) ∧
    s.CopiedAt (s.copyWithHandles t.tag).2 t.tag (s.copyWithHandles t.tag).1
      ((s.walk t.tag).map s.handle) ∧
    ∀ copied ∈ [s.copy t.tag, s.copyWithHandles t.tag],
      copied.2.IndependentOf t.tag copied.1 ∧ copied.2.IndependentOf copied.1 t.tag ∧
      ((∀ p, ∀ c ∈ s.children p, c < s.size) →
        copied.2.StandsAlone (copied.2.walk copied.1)) := by
  rw [copy_eq, copyWithHandles_eq]
  refine ⟨h.copiedAt_plant fun _ => none, ?_, fun copied hcopied => ?_⟩
  · have hcopied := h.copiedAt_plant id
    rwa [Tree.map_id] at hcopied
  · obtain ⟨planted, rfl⟩ : ∃ planted, copied = (s.size, s.plant planted) := by
      obtain rfl | hcopied := List.mem_cons.mp hcopied
      · exact ⟨_, rfl⟩
      · exact ⟨_, List.mem_singleton.mp hcopied⟩
    obtain ⟨hforth, hback⟩ := h.independentOf_plant planted
    exact ⟨hforth, hback, fun hlisted => standsAlone_plant hlisted planted⟩

/-- A sum in a group has one literal at three places. Its copy has three literals there, and the sum
stays as it is when the copy is flattened and one of the literals loses its handle. -/
theorem copies_stand_alone_shared_literal :
    let a : Literal := ⟨['a'], rfl⟩
    let s : Store := ⟨#[{ content := .literal a, handle := some (.text "a") },
      { content := .branch (.chain .plus) [0, 0] }, { content := .branch (.chain .plus) [1, 0] },
      { content := .branch .group [2] }]⟩
    let leaf : Tree NodeId := .literal 0 a
    let t : Tree NodeId := .branch 2 (.chain .plus) [.branch 1 (.chain .plus) [leaf, leaf], leaf]
    let copied := s.copyWithHandles 2
    let edited := (copied.2.flatten copied.1).setHandle 6 none
    s.Holds t ∧
      s.CopiedAt copied.2 2 copied.1
        [none, none, some (.text "a"), some (.text "a"), some (.text "a")] ∧
      copied.2.StandsAlone (copied.2.walk copied.1) ∧
      edited.walk copied.1 = [4, 6, 7, 8] ∧ edited.tree 2 = t ∧
      edited.labelled 2 = copied.2.labelled 2 := by
  intro a s leaf t copied edited
  have hleaf : s.Holds leaf := .literal (by decide) rfl
  have hsum : s.Holds (.branch 1 (.chain .plus) [leaf, leaf]) :=
    .branch (by decide) rfl (by simp [hleaf])
  have ht : s.Holds t := .branch (by decide) rfl (by simp [hsum, hleaf])
  have hlisted : ∀ p, ∀ c ∈ s.children p, c < s.size := fun p c hc =>
    (by decide : ∀ p < s.size, ∀ c ∈ s.children p, c < s.size) p (lt_size_of_mem_children hc) c hc
  obtain ⟨-, hcopied, hindependent⟩ := copies_stand_alone ht
  obtain ⟨-, hback, hstands⟩ := hindependent copied (List.mem_cons_of_mem _ List.mem_cons_self)
  have hflatten := EditBeside.flatten (hback.avoids copied.1 (by decide +kernel))
  have hhandle : EditBeside (copied.2.walk 2) (copied.2.flatten copied.1) edited :=
    .setHandle (by decide +kernel) none
  obtain ⟨htree, hlabelled, -⟩ := hback.unchanged edited (.tail (.single hflatten) hhandle)
  exact ⟨ht, hcopied, hstands hlisted, by decide +kernel, htree.trans (by decide +kernel),
    hlabelled⟩

/-- It is not enough to attach no node of the tree itself. A sum of a sum stands in a group. If its
copy gets the group as a child, which is no node of the sum, flattening the copy reaches the sum
through the group and merges it. -/
theorem flatten_copy_with_larger_tree :
    let a : Literal := ⟨['a'], rfl⟩
    let b : Literal := ⟨['b'], rfl⟩
    let c : Literal := ⟨['c'], rfl⟩
    let s : Store := ⟨#[{ content := .literal a, parent := some 3 },
      { content := .literal b, parent := some 3 }, { content := .literal c, parent := some 4 },
      { content := .branch (.chain .plus) [0, 1], parent := some 4 },
      { content := .branch (.chain .plus) [3, 2], parent := some 5 },
      { content := .branch .group [4] }]⟩
    let leaves : List (Tree NodeId) := [.literal 0 a, .literal 1 b]
    let copied := s.copy 4
    let grown := copied.2.attach copied.1 5
    copied.2.addChild copied.1 5 = .ok grown ∧ 5 ∉ copied.2.walk 4 ∧
      copied.2.tree 4 =
        .branch 4 (.chain .plus) [.branch 3 (.chain .plus) leaves, .literal 2 c] ∧
      grown.tree 4 = copied.2.tree 4 ∧
      (grown.flatten copied.1).tree 4 = .branch 4 (.chain .plus) (leaves ++ [.literal 2 c]) := by
  intro a b c s leaves copied grown
  have hkind : copied.2.kind copied.1 = .branch (.chain .plus) := by decide +kernel
  have hadd : copied.2.addChild copied.1 5 = .ok grown := by
    rw [addChild, hkind]
    rfl
  exact ⟨hadd, by decide +kernel, by decide +kernel, by decide +kernel, by decide +kernel⟩

end Rearrange.Store
