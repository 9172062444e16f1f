import Rearrange.Proofs.Store.Grow
import Rearrange.Store.Plant

namespace Rearrange

namespace Tree

variable {α : Type}

mutual
/-- The tree with its nodes numbered from the given identity on, each before those below it. -/
def numbered (base : NodeId) : Tree α → Tree NodeId
  | literal _ l => literal base l
  | branch _ shape cs => branch base shape (numberedAll (base + 1) cs)

/-- The trees numbered one after the other from the given identity on. -/
def numberedAll (base : NodeId) : List (Tree α) → List (Tree NodeId)
  | [] => []
  | c :: cs => c.numbered base :: numberedAll (base + c.size) cs
end

@[simp] theorem tag_numbered (base : NodeId) (t : Tree α) : (t.numbered base).tag = base := by
  cases t <;> rfl

private theorem numberedAll_append (base : NodeId) (cs ds : List (Tree α)) :
    numberedAll base (cs ++ ds) = numberedAll base cs ++ numberedAll (base + sizeAll cs) ds := by
  induction cs generalizing base with
  | nil => rfl
  | cons c cs ih =>
    rw [List.cons_append, numberedAll, ih, numberedAll, sizeAll, Nat.add_assoc, List.cons_append]

private theorem sizeAll_append (cs ds : List (Tree α)) :
    sizeAll (cs ++ ds) = sizeAll cs + sizeAll ds := by
  induction cs with
  | nil => rw [List.nil_append, sizeAll, Nat.zero_add]
  | cons c cs ih => rw [List.cons_append, sizeAll, ih, sizeAll, Nat.add_assoc]

mutual
/-- The nodes of a numbered tree are numbered on from its top. -/
theorem tags_numbered (base : NodeId) :
    (t : Tree α) → (t.numbered base).tags = List.range' base t.size
  | literal _ _ => rfl
  | branch _ shape cs => by
    rw [numbered, tags_branch, flatMap_tags_numberedAll (base + 1) cs, size, Nat.add_comm 1,
      List.range'_succ]

/-- The nodes of numbered trees are numbered on from the first top. -/
theorem flatMap_tags_numberedAll (base : NodeId) :
    (cs : List (Tree α)) → (numberedAll base cs).flatMap tags = List.range' base (sizeAll cs)
  | [] => rfl
  | c :: cs => by
    rw [numberedAll, List.flatMap_cons, tags_numbered base c,
      flatMap_tags_numberedAll (base + c.size) cs, sizeAll, List.range'_append_1]
end

/-- No node of a numbered tree comes before its top. -/
theorem le_of_mem_tags_numbered {base id : NodeId} {t : Tree α}
    (h : id ∈ (t.numbered base).tags) : base ≤ id := by
  rw [tags_numbered, List.mem_range'_1] at h
  exact h.1

end Tree

namespace Store

/-- What planting a tree comes to: its nodes are numbered on from the size of the store, each before
those below it, and the store owns the tree that they form. It stands by itself and has the given
handles; whatever was there is as it was. -/
structure Plants (s s' : Store) (t : Tree (Option Handle)) : Prop extends Within s s' where
  size_eq : s'.size = s.size + t.size
  owns : s'.Owns (t.numbered s.size)
  parent_eq : s'.parent s.size = none
  map_handle : (t.numbered s.size).map s'.handle = t

variable {s s' s'' : Store} {t : Tree NodeId}

/-- A literal is planted as one new node. -/
theorem plants_push_literal (s : Store) (handle : Option Handle) (l : Literal) :
    s.Plants (s.push { content := .literal l, handle }) (.literal handle l) := by
  have hlt : s.size < (s.push { content := .literal l, handle }).size := by
    rw [size_push]
    exact Nat.lt_succ_self _
  refine ⟨within_push s _, size_push s _, ⟨?_, ?_, ?_⟩, ?_, ?_⟩
  · exact .literal hlt (by rw [cell_push_size])
  · exact List.nodup_singleton _
  · intro id hid c hc
    obtain rfl : id = s.size := by simpa [Tree.numbered] using hid
    rw [children, cell_push_size] at hc
    cases hc
  · rw [parent, cell_push_size]
  · rw [Tree.numbered, Tree.map_literal, Store.handle, cell_push_size]

/-- A node that is to get the trees below it stands there without children at first. -/
theorem plants_push_branch (s : Store) (handle : Option Handle) (shape : Shape) :
    s.Plants (s.push { content := .branch shape [], handle }) (.branch handle shape []) := by
  have hmade := (grows_nil s).makeBranch shape handle
  rw [List.map_nil, makeBranch_eq] at hmade
  refine ⟨hmade.toWithin, size_push s _, hmade.owns _ List.mem_cons_self,
    hmade.parent_eq _ List.mem_cons_self, ?_⟩
  rw [Tree.numbered, Tree.map_branch, Store.handle, cell_push_size]
  rfl

/-- Attaching a planted tree to a planted branch makes a branch with one more tree below it. -/
theorem Plants.attach {a : Option Handle} {shape : Shape} {cs : List (Tree (Option Handle))}
    {c : Tree (Option Handle)} (h : s.Plants s' (.branch a shape cs)) (hc : s'.Plants s'' c) :
    s.Plants (s''.attach s.size s'.size) (.branch a shape (cs ++ [c])) := by
  have hnumbered : (Tree.branch a shape (cs ++ [c])).numbered s.size =
      .branch s.size shape (Tree.numberedAll (s.size + 1) cs ++ [c.numbered s'.size]) := by
    rw [Tree.numbered, Tree.numberedAll_append, h.size_eq, Tree.size, ← Nat.add_assoc]
    rfl
  have howns := hc.toWithin.owns h.owns
  have hlt : s.size < s'.size := by
    rw [h.size_eq]
    exact Nat.lt_add_of_pos_right (Tree.size_pos _)
  -- Numbers are given out upwards, so the new tree begins after the last node of the old one.
  have hdisjoint : ((Tree.branch a shape cs).numbered s.size).tags.Disjoint
      (c.numbered s'.size).tags := fun id hid hnew =>
    absurd (h.owns.holds.lt_size hid) (Nat.not_lt.mpr (Tree.le_of_mem_tags_numbered hnew))
  have hattached := owns_attach howns hc.owns hdisjoint
  rw [Tree.tag_numbered] at hattached
  have hhandle : (s''.attach s.size s'.size).handle = s''.handle :=
    funext fun id => handle_attach _ _ _ id
  refine ⟨⟨?_, fun id hid => ?_⟩, ?_, ?_, ?_, ?_⟩
  · rw [size_attach]
    exact Nat.le_trans h.size_le hc.size_le
  · rw [cell_attach_of_ne (Nat.ne_of_lt hid) (Nat.ne_of_lt (Nat.lt_trans hid hlt)),
      hc.cell_eq id (Nat.lt_trans hid hlt), h.cell_eq id hid]
  · rw [size_attach, hc.size_eq, h.size_eq, Tree.size, Tree.size, Tree.sizeAll_append,
      Tree.sizeAll, Tree.sizeAll]
    omega
  · rw [hnumbered]
    exact hattached
  · rw [parent_attach, if_neg fun heq => Nat.ne_of_lt hlt heq.1, hc.toWithin.parent_eq hlt,
      h.parent_eq]
  · have hmap := h.map_handle
    rw [← hc.toWithin.map_handle_eq h.owns.holds, Tree.numbered, Tree.map_branch,
      Tree.branch.injEq] at hmap
    rw [hnumbered, hhandle, Tree.map_branch, List.map_append, List.map_singleton, hc.map_handle,
      hmap.1, hmap.2.2]

/-- Planting trees below a planted branch adds them to the branch. -/
theorem Plants.plantBelow {a : Option Handle} {shape : Shape}
    {before cs : List (Tree (Option Handle))} (h : s.Plants s' (.branch a shape before))
    (hcs : ∀ c ∈ cs, ∀ s : Store, s.Plants (s.plant c) c) :
    s.Plants (s'.plantBelow s.size cs) (.branch a shape (before ++ cs)) := by
  induction cs generalizing s' before with
  | nil => rwa [List.append_nil]
  | cons c cs ih =>
    obtain ⟨hc, hcs⟩ := List.forall_mem_cons.mp hcs
    have hmore := ih (h.attach (hc s')) hcs
    rwa [List.append_assoc, List.singleton_append] at hmore

/-- Planting a tree makes its nodes and nothing else. -/
theorem plants_plant (s : Store) (t : Tree (Option Handle)) : s.Plants (s.plant t) t := by
  induction t generalizing s with
  | literal handle l => exact plants_push_literal s handle l
  | branch handle shape cs ih => exact (plants_push_branch s handle shape).plantBelow ih

theorem size_plant (s : Store) (t : Tree (Option Handle)) :
    (s.plant t).size = s.size + t.size :=
  (plants_plant s t).size_eq

/-- Planting a tree changes no node that is there. -/
theorem cell_plant_of_lt {t : Tree (Option Handle)} {id : NodeId} (hid : id < s.size) :
    (s.plant t).cell id = s.cell id :=
  (plants_plant s t).cell_eq id hid

/-- The store owns a planted tree. -/
theorem owns_plant (s : Store) (t : Tree (Option Handle)) :
    (s.plant t).Owns (t.numbered s.size) :=
  (plants_plant s t).owns

theorem parent_plant (s : Store) (t : Tree (Option Handle)) :
    (s.plant t).parent s.size = none :=
  (plants_plant s t).parent_eq

/-- The nodes of a planted tree have its handles. -/
theorem map_handle_plant (s : Store) (t : Tree (Option Handle)) :
    (t.numbered s.size).map (s.plant t).handle = t :=
  (plants_plant s t).map_handle

/-- A numbered tree is the tree but for its tags. -/
theorem erase_numbered_size (s : Store) (t : Tree (Option Handle)) :
    (t.numbered s.size).erase = t.erase := by
  conv_rhs => rw [← map_handle_plant s t]
  rw [Tree.erase_map]

/-- A planted expression stands at the first new node. -/
theorem expr_plant (s : Store) (e : Expr) : (s.plant (e.map fun _ => none)).expr s.size = e := by
  have hexpr := (owns_plant s (e.map fun _ => none)).expr_eq
  rwa [Tree.tag_numbered, erase_numbered_size, Tree.erase_map, Tree.erase_eq] at hexpr

/-- The store grows by the tree that is planted. -/
theorem grows_plant (s : Store) (t : Tree (Option Handle)) :
    s.Grows (s.plant t) [t.numbered s.size] := by
  have hplants := plants_plant s t
  refine ⟨hplants.toWithin, ?_, ?_, ?_, fun id hid => ?_⟩
  · rw [List.forall_mem_singleton]
    exact hplants.owns
  · rw [List.forall_mem_singleton, Tree.tag_numbered]
    exact hplants.parent_eq
  · rw [List.flatMap_singleton]
    exact hplants.owns.nodup
  · rw [List.flatMap_singleton] at hid
    exact Tree.le_of_mem_tags_numbered hid

/-- Copying makes the nodes that planting the tree with its labels would make: both make a node
first, and then attach to it what they make of its children. -/
theorem copyWithin_eq (source : Store) (keepHandles : Bool) (depth : Nat) (s : Store)
    (id : NodeId) :
    source.copyWithin keepHandles depth s id =
      (s.size, s.plant ((source.treeWithin depth id).map fun n =>
        if keepHandles then source.handle n else none)) := by
  induction depth generalizing s id with
  | zero =>
    rw [copyWithin, treeWithin]
    cases (source.cell id).content <;> rfl
  | succ depth ih =>
    -- The children are copied one level less deep, each into what the earlier ones have left.
    have hbelow : ∀ (cs : List NodeId) (made : Store),
        cs.foldl (fun grown child =>
          (source.copyWithin keepHandles depth grown child).2.attach s.size
            (source.copyWithin keepHandles depth grown child).1) made =
        made.plantBelow s.size (cs.map fun c => (source.treeWithin depth c).map fun n =>
          if keepHandles then source.handle n else none) := by
      intro cs
      induction cs with
      | nil => exact fun _ => rfl
      | cons c cs ihcs =>
        intro made
        rw [List.foldl_cons, ihcs, ih made c, List.map_cons, plantBelow]
    rw [copyWithin, treeWithin]
    cases hcontent : (source.cell id).content with
    | literal l => rfl
    | branch shape cs =>
      have hcopied := hbelow cs
        (s.push { content := .branch shape []
                  handle := if keepHandles then source.handle id else none })
      simp only [Tree.map_branch, List.map_map, Function.comp_def, plant]
      rw [← hcopied]
      rfl

/-- A copy is what planting the labels without handles makes. -/
theorem copy_eq (s : Store) (id : NodeId) :
    s.copy id = (s.size, s.plant ((s.labelled id).map fun _ => none)) := by
  rw [copy, copyWithin_eq, labelled, Tree.map_map]
  rfl

/-- A copy with handles is what planting the labels makes. -/
theorem copyWithHandles_eq (s : Store) (id : NodeId) :
    s.copyWithHandles id = (s.size, s.plant (s.labelled id)) := by
  rw [copyWithHandles, copyWithin_eq]
  rfl

/-- What making copies of several trees comes to: new trees with the same handles. -/
theorem exists_grows_copyAll {ts : List (Tree NodeId)} (h : ∀ t ∈ ts, s.Holds t) :
    ∃ copies, (s.copyAll (ts.map Tree.tag)).1 = copies.map Tree.tag ∧
      s.Grows (s.copyAll (ts.map Tree.tag)).2 copies ∧
      copies.map (Tree.map (s.copyAll (ts.map Tree.tag)).2.handle) =
        ts.map (Tree.map s.handle) := by
  induction ts generalizing s with
  | nil => exact ⟨[], rfl, grows_nil s, rfl⟩
  | cons t ts ih =>
    obtain ⟨ht, hts⟩ := List.forall_mem_cons.mp h
    have hplants := plants_plant s (t.map s.handle)
    have hgrows := grows_plant s (t.map s.handle)
    -- The other trees are copied in a store that has grown by the first copy, and are still there.
    obtain ⟨copies, htops, hcopies, hlabels⟩ := ih fun u hu => hplants.toWithin.holds (hts u hu)
    have hfirst : s.copyWithHandles t.tag = (s.size, s.plant (t.map s.handle)) := by
      rw [copyWithHandles_eq, ht.labelled_eq]
    refine ⟨(t.map s.handle).numbered s.size :: copies, ?_, ?_, ?_⟩
    · simp only [List.map_cons, copyAll, hfirst, htops, Tree.tag_numbered]
    · simp only [List.map_cons, copyAll, hfirst]
      exact hgrows.append hcopies
    · simp only [List.map_cons, copyAll, hfirst]
      rw [hlabels, hcopies.toWithin.map_handle_eq hplants.owns.holds, hplants.map_handle]
      refine congrArg _ (List.map_congr_left fun u hu => ?_)
      exact hplants.toWithin.map_handle_eq (hts u hu)

end Store

end Rearrange
