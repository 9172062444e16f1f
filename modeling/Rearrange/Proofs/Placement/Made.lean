import Rearrange.Placement
import Rearrange.Proofs.Store.Path
import Rearrange.Proofs.Store.Plant
import Rearrange.Proofs.Tree.Indented
import Rearrange.Proofs.Tree.Moved

namespace Rearrange

namespace Tree

variable {α : Type}

/-- A text and an index name the child at the given place: it has the indented text and stands at
the index, or, without an index, is the first one with the text. -/
def NamesChild (t : Tree α) (wanted : List Char) (index : Option Int) (i : Nat) : Prop :=
  (∃ c, t.children[i]? = some c ∧ c.indented 0 = wanted) ∧
    match index with
    | none => ∀ j c, j < i → t.children[j]? = some c → c.indented 0 ≠ wanted
    | some k => k = i

/-- A text and an index name no child: none has the indented text, or the index is out of range on
either side or is that of a child with another text. -/
def NamesNoChild (t : Tree α) (wanted : List Char) : Option Int → Prop
  | none => ∀ c ∈ t.children, c.indented 0 ≠ wanted
  | some k => k < 0 ∨ t.children.length ≤ k ∨
      ∃ i c, k = Int.ofNat i ∧ t.children[i]? = some c ∧ c.indented 0 ≠ wanted

/-- The labels of a tree as a dump shows them where every node remembers the node that lists it. -/
def recorded (t : Tree (Option Handle)) : Tree Store.Record :=
  t.map fun handle => ⟨handle, true⟩

end Tree

namespace Store

/-- What making the placements of a child comes to: for every position there is a new tree that has
the kind and the handle of the node above the child, and has copies of its children, one of them at
the position. The new trees are in order, have no node in common, and stand by themselves; whatever
was there is as it was. -/
structure MakesPlacements (s s' : Store) (p : Tree NodeId) (i : Nat) (f : Tree NodeId)
    (made : List (Tree NodeId)) : Prop extends Grows s s' made where
  length_eq : made.length = p.children.length
  kind_eq : ∀ d ∈ made, d.kind = p.kind
  handle_eq : ∀ d ∈ made, s'.handle d.tag = s.handle p.tag
  children_eq : ∀ j d, made[j]? = some d → d.children.map (Tree.map s'.handle) =
    ((p.children.eraseIdx i).insertIdx j f).map (Tree.map s.handle)

/-- What making the candidates for moving a child comes to: they are its placements in their order,
and each of them says at which position the copy of the child is and which node it is. -/
structure MakesCandidates (s s' : Store) (p : Tree NodeId) (i : Nat) (f : Tree NodeId)
    (cs : List Candidate) (made : List (Tree NodeId)) : Prop
    extends MakesPlacements s s' p i f made where
  tree_eq : cs.map Candidate.tree = made.map Tree.tag
  position_eq : ∀ (j : Nat) c, cs[j]? = some c → c.position = j
  getElem?_moved : ∀ (j : Nat) c, cs[j]? = some c → (s'.children c.tree)[j]? = some c.moved
  labelled_moved : ∀ c ∈ cs, s'.labelled c.moved = f.map s.handle

variable {s s' : Store} {p f : Tree NodeId} {wanted : List Char} {index : Option Int} {i : Nat}
  {made : List (Tree NodeId)} {cs : List Candidate}

/-- A child is written as in the tree that is held. -/
theorem Holds.indented_expr (h : s.Holds p) {c : Tree NodeId} (hc : c ∈ p.children) :
    (s.expr c.tag).indented 0 = c.indented 0 := by
  rw [(h.of_mem_children hc).expr_eq, Tree.erase, Tree.indented_map]

/-- A child is found in the store when the tree names it. -/
theorem Holds.childMatching_eq_some_iff (h : s.Holds p) :
    s.childMatching p.tag wanted index = some i ↔ p.NamesChild wanted index i := by
  cases index with
  | none =>
    rw [childMatching, h.children_tag, List.findIdx?_map, List.findIdx?_eq_some_iff_getElem]
    constructor
    · rintro ⟨hlt, hmatch, hfirst⟩
      refine ⟨⟨_, List.getElem?_eq_getElem hlt, ?_⟩, fun j c hj hc htext => ?_⟩
      · simpa [h.indented_expr (List.getElem_mem hlt)] using hmatch
      · obtain ⟨hjlt, rfl⟩ := List.getElem?_eq_some_iff.mp hc
        exact hfirst j hj (by simpa [h.indented_expr (List.getElem_mem hjlt)] using htext)
    · rintro ⟨⟨c, hc, htext⟩, hfirst⟩
      obtain ⟨hlt, rfl⟩ := List.getElem?_eq_some_iff.mp hc
      refine ⟨hlt, ?_, fun j hj hmatch => ?_⟩
      · simpa [h.indented_expr (List.getElem_mem hlt)] using htext
      · have hjlt := Nat.lt_trans hj hlt
        refine hfirst j _ hj (List.getElem?_eq_getElem hjlt) ?_
        simpa [h.indented_expr (List.getElem_mem hjlt)] using hmatch
  | some k =>
    rw [childMatching, h.children_tag, elementAt?_map]
    constructor
    · intro hmatch
      cases hget : elementAt? p.children k with
      | none => simp [hget] at hmatch
      | some c =>
        obtain ⟨j, rfl, hj⟩ := elementAt?_eq_some_iff.mp hget
        obtain ⟨htext, rfl⟩ : c.indented 0 = wanted ∧ j = i := by
          simpa [hget, h.indented_expr (List.mem_of_getElem? hj)] using hmatch
        exact ⟨⟨c, hj, htext⟩, rfl⟩
    · rintro ⟨⟨c, hc, htext⟩, rfl⟩
      have hexpr := h.indented_expr (List.mem_of_getElem? hc)
      simp [elementAt?_eq_some_iff.mpr ⟨i, rfl, hc⟩, hexpr, htext]

/-- No child is found in the store when the tree names none. -/
theorem Holds.childMatching_eq_none_iff (h : s.Holds p) :
    s.childMatching p.tag wanted index = none ↔ p.NamesNoChild wanted index := by
  cases index with
  | none =>
    rw [childMatching, h.children_tag, List.findIdx?_map, List.findIdx?_eq_none_iff]
    refine forall₂_congr fun c hc => ?_
    simp [h.indented_expr hc]
  | some k =>
    rw [childMatching, h.children_tag, elementAt?_map, Tree.NamesNoChild]
    cases hget : elementAt? p.children k with
    | none =>
      have hout := elementAt?_eq_none_iff.mp hget
      refine iff_of_true rfl ?_
      omega
    | some c =>
      obtain ⟨j, rfl, hj⟩ := elementAt?_eq_some_iff.mp hget
      have hlt := (List.getElem?_eq_some_iff.mp hj).1
      have hexpr := h.indented_expr (List.mem_of_getElem? hj)
      constructor
      · intro hnone
        exact .inr (.inr ⟨j, c, rfl, hj, by simpa [hexpr] using hnone⟩)
      · rintro (hneg | hpast | ⟨j', c', hjj, hj', htext⟩)
        · omega
        · omega
        · obtain rfl : j = j' := Int.ofNat.inj hjj
          obtain rfl : c = c' := Option.some.inj (hj.symm.trans hj')
          simpa [hexpr] using htext

/-- A placement is a new branch over copies of the siblings and of the node among them. -/
theorem exists_grows_makePlacement {ts : List (Tree NodeId)} (hts : ∀ t ∈ ts, s.Holds t)
    (hf : s.Holds f) (shape : Shape) (handle : Option Handle) {position : Nat}
    (hposition : position ≤ ts.length) :
    let placed := s.makePlacement shape handle (ts.map Tree.tag) f.tag position
    ∃ d, placed.1 = d.tag ∧ s.Grows placed.2 [d] ∧ d.map placed.2.handle =
      .branch handle shape ((ts.insertIdx position f).map (Tree.map s.handle)) := by
  intro placed
  obtain ⟨copies, htops, hcopies, hlabels⟩ := exists_grows_copyAll hts
  let copied := (s.copyAll (ts.map Tree.tag)).2
  let label := f.map copied.handle
  let moved := label.numbered copied.size
  let ds := copies.insertIdx position moved
  have hf' : copied.Holds f := hcopies.toWithin.holds hf
  have hplants := plants_plant copied label
  have hlength : copies.length = ts.length := by simpa using congrArg List.length hlabels
  -- The copy of the node is made last, and then it is put among those of its siblings.
  have hgrows : s.Grows (copied.plant label) ds := by
    refine (hcopies.append (grows_plant copied label)).perm ?_
    exact (List.perm_append_singleton moved copies).trans
      (List.perm_insertIdx _ _ (hlength ▸ hposition)).symm
  have hplaced : placed = (copied.plant label).makeBranch shape (ds.map Tree.tag) handle := by
    simp only [placed, makePlacement, htops, copyWithHandles_eq, ds, List.map_insertIdx, moved,
      Tree.tag_numbered]
    rw [hf'.labelled_eq]
  have hhandles : ds.map (Tree.map (copied.plant label).handle) =
      (ts.insertIdx position f).map (Tree.map s.handle) := by
    have hkept : copies.map (Tree.map (copied.plant label).handle) =
        copies.map (Tree.map copied.handle) := List.map_congr_left fun d hd =>
      hplants.toWithin.map_handle_eq (hcopies.owns d hd).holds
    rw [List.map_insertIdx, List.map_insertIdx, hkept, hlabels, hplants.map_handle]
    exact congrArg _ (hcopies.toWithin.map_handle_eq hf)
  refine ⟨.branch (copied.plant label).size shape ds, ?_, ?_, ?_⟩
  · rw [hplaced]
    rfl
  · rw [hplaced]
    exact hgrows.makeBranch shape handle
  · rw [hplaced, map_handle_makeBranch fun d hd => (hgrows.owns d hd).holds, hhandles]

/-- Placements are made one after the other, and each leaves the earlier ones as they are. -/
theorem exists_grows_makePlacements {ts : List (Tree NodeId)} (hts : ∀ t ∈ ts, s.Holds t)
    (hf : s.Holds f) (shape : Shape) (handle : Option Handle) (positions : List Nat)
    (hpositions : ∀ j ∈ positions, j ≤ ts.length) :
    let placed := s.makePlacements shape handle (ts.map Tree.tag) f.tag positions
    ∃ ds, placed.1 = ds.map Tree.tag ∧ s.Grows placed.2 ds ∧
      ds.map (Tree.map placed.2.handle) = positions.map fun j =>
        .branch handle shape ((ts.insertIdx j f).map (Tree.map s.handle)) := by
  induction positions generalizing s with
  | nil => exact ⟨[], rfl, grows_nil s, rfl⟩
  | cons position positions ih =>
    obtain ⟨hposition, hpositions⟩ := List.forall_mem_cons.mp hpositions
    obtain ⟨d, htop, hgrows, hlabel⟩ := exists_grows_makePlacement hts hf shape handle hposition
    obtain ⟨ds, htops, hothers, hlabels⟩ := ih (fun t ht => hgrows.toWithin.holds (hts t ht))
      (hgrows.toWithin.holds hf) hpositions
    refine ⟨d :: ds, ?_, hgrows.append hothers, ?_⟩
    · simp only [makePlacements, List.map_cons, htop, htops]
    · have hd := (hgrows.owns d List.mem_cons_self).holds
      have hsame : ∀ j, (ts.insertIdx j f).map (Tree.map
          (s.makePlacement shape handle (ts.map Tree.tag) f.tag position).2.handle) =
            (ts.insertIdx j f).map (Tree.map s.handle) := fun j => by
        refine List.map_congr_left fun t ht => hgrows.toWithin.map_handle_eq ?_
        obtain rfl | ht := List.eq_or_mem_of_mem_insertIdx ht
        · exact hf
        · exact hts t ht
      simp only [hsame] at hlabels
      simp only [makePlacements, List.map_cons, hlabels]
      rw [hothers.toWithin.map_handle_eq hd, hlabel]

/-- New trees are placements of a child if their labels are those of the node above it, with the
child at one position after the other. -/
private theorem makesPlacements_of_map_handle {id : NodeId} {shape : Shape}
    {ts : List (Tree NodeId)} (hi : i < ts.length) (hgrows : s.Grows s' made)
    (hlabels : made.map (Tree.map s'.handle) = (List.range ts.length).map fun j =>
      .branch (s.handle id) shape (((ts.eraseIdx i).insertIdx j ts[i]).map (Tree.map s.handle))) :
    s.MakesPlacements s' (.branch id shape ts) i ts[i] made := by
  have hlength : made.length = ts.length := by simpa using congrArg List.length hlabels
  have hlabel : ∀ (j : Nat) d, made[j]? = some d → d.map s'.handle =
      .branch (s.handle id) shape
        (((ts.eraseIdx i).insertIdx j ts[i]).map (Tree.map s.handle)) := by
    intro j d hd
    have hj : j < ts.length := hlength ▸ (List.getElem?_eq_some_iff.mp hd).1
    have hget := congrArg (·[j]?) hlabels
    simp only [List.getElem?_map, hd, List.getElem?_range hj, Option.map_some] at hget
    exact Option.some.inj hget
  have hbranch : ∀ d ∈ made, d.kind = .branch shape ∧ s'.handle d.tag = s.handle id := by
    intro d hd
    obtain ⟨j, hj⟩ := List.mem_iff_getElem?.mp hd
    have hmap := hlabel j d hj
    constructor
    · rw [← Tree.kind_map s'.handle d, hmap, Tree.kind]
    · rw [← Tree.tag_map s'.handle d, hmap, Tree.tag]
  refine ⟨hgrows, hlength, fun d hd => (hbranch d hd).1, fun d hd => (hbranch d hd).2, ?_⟩
  intro j d hd
  rw [← Tree.children_map, hlabel j d hd, Tree.children, Tree.children]

/-- A text and an index that name a child make placements of it; the note says how many there are
and names the child. -/
theorem Holds.exists_placements (h : s.Holds p)
    (hmatch : s.childMatching p.tag wanted index = some i) (hf : p.children[i]? = some f) :
    let o := s.placements p.tag wanted index
    ∃ made, o.result = .ok (made.map Tree.tag) ∧ s.MakesPlacements o.store p i f made ∧
      o.notes = [.generated p.children.length f.flat p.kind] := by
  cases p with
  | literal id l => cases hf
  | branch id shape ts =>
    obtain ⟨hi, rfl⟩ := List.getElem?_eq_some_iff.mp hf
    simp only [Tree.children] at hi ⊢
    -- There is one position more than there are siblings, which is one for each child.
    have hlength : (ts.eraseIdx i).length + 1 = ts.length := by
      rw [List.length_eraseIdx_of_lt hi]
      omega
    have hts : ∀ t ∈ ts, s.Holds t := fun t ht => h.of_mem ht
    obtain ⟨made, htops, hgrows, hlabels⟩ := exists_grows_makePlacements
      (fun t ht => hts t (List.mem_of_mem_eraseIdx ht)) (hts _ (List.getElem_mem hi)) shape
      (s.handle id) (List.range ((ts.eraseIdx i).length + 1))
      fun j hj => Nat.lt_succ_iff.mp (List.mem_range.mp hj)
    rw [hlength] at htops hgrows hlabels
    have hcount : made.length = ts.length := by simpa using congrArg List.length hlabels
    have hplaced : s.placements id wanted index =
        { result := .ok (made.map Tree.tag)
          store := (s.makePlacements shape (s.handle id) ((ts.eraseIdx i).map Tree.tag) ts[i].tag
            (List.range ts.length)).2
          notes := [.generated ts.length ts[i].flat (.branch shape)] } := by
      have hkind : s.kind id = .branch shape := h.kind_eq
      have hchild : (ts.map Tree.tag)[i]? = some ts[i].tag := by
        rw [List.getElem?_map, List.getElem?_eq_getElem hi, Option.map_some]
      have htext : (s.expr ts[i].tag).flat = ts[i].flat := by
        rw [(hts _ (List.getElem_mem hi)).expr_eq, Tree.flat_erase]
      rw [Tree.tag] at hmatch
      simp only [placements, hkind, hmatch, h.children_eq, hchild, List.eraseIdx_map,
        List.length_map, hlength, htops, hcount, htext]
    rw [Tree.tag, hplaced]
    exact ⟨made, rfl, makesPlacements_of_map_handle hi hgrows hlabels, rfl⟩

/-- Nothing is made when no child is found. -/
private theorem placements_eq_of_childMatching_eq_none {parent : NodeId}
    (h : s.childMatching parent wanted index = none) :
    s.placements parent wanted index =
      { result := .error (.noMatch (s.kind parent) wanted), store := s } := by
  rw [placements, h]
  cases s.kind parent <;> rfl

/-- Placements are refused when no child is named, and for no other reason. -/
theorem Holds.result_placements_eq_error_iff (h : s.Holds p) {e : LookupError} :
    (s.placements p.tag wanted index).result = .error e ↔
      p.NamesNoChild wanted index ∧ e = .noMatch p.kind wanted := by
  rw [← h.childMatching_eq_none_iff]
  cases hmatch : s.childMatching p.tag wanted index with
  | none =>
    rw [placements_eq_of_childMatching_eq_none hmatch, h.kind_eq]
    exact ⟨fun he => ⟨rfl, (Except.error.inj he).symm⟩, fun he => congrArg Except.error he.2.symm⟩
  | some i =>
    obtain ⟨f, hf, -⟩ := (h.childMatching_eq_some_iff.mp hmatch).1
    obtain ⟨made, hresult, -⟩ := h.exists_placements hmatch hf
    rw [hresult]
    exact iff_of_false nofun fun he => absurd he.1 (Option.some_ne_none i)

/-- Each placement has the labels of the node above the child, with the child at its position. -/
theorem MakesPlacements.map_handle_eq (h : s.MakesPlacements s' p i f made)
    (hf : p.children[i]? = some f) {j : Nat} {d : Tree NodeId} (hd : made[j]? = some d) :
    d.map s'.handle = (p.map s.handle).withMoved i j := by
  have hmem := List.mem_of_getElem? hd
  have hkind := h.kind_eq d hmem
  have hhandle := h.handle_eq d hmem
  have hchildren := h.children_eq j d hd
  cases p with
  | literal id l => cases hf
  | branch id shape ts =>
    cases d with
    | literal id' l => cases hkind
    | branch id' shape' ds =>
      obtain ⟨hi, rfl⟩ := List.getElem?_eq_some_iff.mp hf
      simp only [Tree.children] at hi hchildren
      obtain rfl : shape' = shape := Kind.branch.inj hkind
      rw [Tree.tag, Tree.tag] at hhandle
      rw [← Tree.map_withMoved, Tree.withMoved, moveElement_eq hi, Tree.map_branch, Tree.map_branch,
        hhandle, hchildren]

/-- The copy of the child stands at its position below the new node. -/
theorem MakesPlacements.exists_moved (h : s.MakesPlacements s' p i f made)
    (hf : p.children[i]? = some f) {j : Nat} {d : Tree NodeId} (hd : made[j]? = some d) :
    ∃ e ∈ d.children, (s'.children d.tag)[j]? = some e.tag ∧ e.map s'.handle = f.map s.handle := by
  have hroom : j ≤ (p.children.eraseIdx i).length := by
    have hj := (List.getElem?_eq_some_iff.mp hd).1
    rw [List.length_eraseIdx_of_lt (List.getElem?_eq_some_iff.mp hf).1, ← h.length_eq]
    omega
  have hlabels := congrArg (·[j]?) (h.children_eq j d hd)
  simp only [List.getElem?_map, List.getElem?_insertIdx_self, if_pos hroom, Option.map_some,
    Option.map_eq_some_iff] at hlabels
  obtain ⟨e, he, hlabel⟩ := hlabels
  have hd' := (h.owns d (List.mem_of_getElem? hd)).holds
  refine ⟨e, List.mem_of_getElem? he, ?_, hlabel⟩
  rw [hd'.children_tag, List.getElem?_map, he, Option.map_some]

/-- Placements with their positions are candidates. -/
theorem MakesPlacements.makesCandidates (h : s.MakesPlacements s' p i f made)
    (hf : p.children[i]? = some f) :
    s.MakesCandidates s' p i f ((made.map Tree.tag).zipIdx.map fun x => s'.candidate x.1 x.2)
      made := by
  have hget : ∀ {j : Nat} {c},
      ((made.map Tree.tag).zipIdx.map fun x => s'.candidate x.1 x.2)[j]? = some c →
        ∃ d, made[j]? = some d ∧ c = s'.candidate d.tag j := by
    intro j c hc
    simp only [List.getElem?_map, List.getElem?_zipIdx, Option.map_map, Option.map_eq_some_iff,
      Function.comp_apply] at hc
    obtain ⟨d, hd, rfl⟩ := hc
    exact ⟨d, hd, by rw [Nat.zero_add]⟩
  refine ⟨h, ?_, fun j c hc => ?_, fun j c hc => ?_, fun c hc => ?_⟩
  · refine List.ext_getElem? fun j => ?_
    simp [candidate, Function.comp_def]
  · obtain ⟨d, -, rfl⟩ := hget hc
    rfl
  · obtain ⟨d, hd, rfl⟩ := hget hc
    obtain ⟨e, -, he, -⟩ := h.exists_moved hf hd
    rw [candidate, he, Option.getD_some]
  · obtain ⟨j, hj⟩ := List.mem_iff_getElem?.mp hc
    obtain ⟨d, hd, rfl⟩ := hget hj
    obtain ⟨e, he, hmoved, hlabel⟩ := h.exists_moved hf hd
    have howns := (h.owns d (List.mem_of_getElem? hd)).of_mem_children he
    rw [candidate, hmoved, Option.getD_some, howns.labelled_eq, hlabel]

/-- What an owned tree shows in a dump. -/
theorem Owns.dump_eq (h : s.Owns p) : s.dump p.tag = (p.map s.handle).recorded := by
  rw [dump, h.tree_eq, Tree.recorded, Tree.map_map]
  refine Tree.map_congr_left fun id hid => ?_
  have hlinked : s.isLinked id = true :=
    List.all_eq_true.mpr fun c hc => beq_iff_eq.mpr (h.linked id hid c hc)
  rw [hlinked]

/-- The candidates of a child that remembers the node above it are its placements. The child is
looked up in the list of its siblings, so where a node is listed twice its first index counts. -/
theorem Holds.exists_candidates (h : s.Holds p)
    (hindex : (s.children p.tag).idxOf? f.tag = some i) (hf : p.children[i]? = some f)
    (hparent : s.parent f.tag = some p.tag) :
    let o := s.candidates f.tag
    ∃ cs made, o.result = .ok cs ∧ s.MakesCandidates o.store p i f cs made ∧
      o.notes = [.generated p.children.length f.flat p.kind,
        .located f.flat i p.children.length] := by
  have hfocus : elementAt? (s.children p.tag) i = some f.tag := by
    rw [h.children_tag, elementAt?_map, elementAt?_eq_some_iff.mpr ⟨i, rfl, hf⟩]
    rfl
  have hmatch : s.childMatching p.tag ((s.expr f.tag).indented 0) (some i) = some i := by
    simp [childMatching, hfocus]
  have htext : (s.expr f.tag).flat = f.flat := by
    rw [(h.of_mem_children (List.mem_of_getElem? hf)).expr_eq, Tree.flat_erase]
  have hcount : (s.children p.tag).length = p.children.length := by
    rw [h.children_tag, List.length_map]
  obtain ⟨made, hresult, hmakes, hnotes⟩ := h.exists_placements hmatch hf
  let grown := (s.placements p.tag ((s.expr f.tag).indented 0) (some i)).store
  have hcandidates : s.candidates f.tag =
      { result := .ok ((made.map Tree.tag).zipIdx.map fun x => grown.candidate x.1 x.2)
        store := grown
        notes := [.generated p.children.length f.flat p.kind,
          .located f.flat i p.children.length] } := by
    rw [candidates, hparent]
    simp only [indexInParent_eq hparent hindex, hresult, hnotes, htext, hcount]
    rfl
  rw [hcandidates]
  exact ⟨_, made, rfl, hmakes.makesCandidates hf, rfl⟩

/-- The same where no node is listed twice. -/
theorem Holds.exists_candidates_of_nodup (h : s.Holds p) (hnodup : (p.children.map Tree.tag).Nodup)
    (hf : p.children[i]? = some f) (hparent : s.parent f.tag = some p.tag) :
    let o := s.candidates f.tag
    ∃ cs made, o.result = .ok cs ∧ s.MakesCandidates o.store p i f cs made ∧
      o.notes = [.generated p.children.length f.flat p.kind,
        .located f.flat i p.children.length] :=
  h.exists_candidates (h.idxOf?_eq hnodup hf) hf hparent

/-- Each candidate is one of the trees that were made. -/
theorem MakesCandidates.exists_made (h : s.MakesCandidates s' p i f cs made) {j : Nat}
    {c : Candidate} (hc : cs[j]? = some c) : ∃ d, made[j]? = some d ∧ d.tag = c.tree := by
  have htree := congrArg (·[j]?) h.tree_eq
  simp only [List.getElem?_map, hc, Option.map_some] at htree
  exact Option.map_eq_some_iff.mp htree.symm

/-- There are as many candidates as the node has children. -/
theorem MakesCandidates.length_candidates (h : s.MakesCandidates s' p i f cs made) :
    cs.length = p.children.length := by
  rw [← h.length_eq, ← List.length_map Candidate.tree, h.tree_eq, List.length_map]

/-- The node that a candidate moves stands in a tree of its own. -/
theorem MakesCandidates.exists_owns_moved (h : s.MakesCandidates s' p i f cs made) {c : Candidate}
    (hc : c ∈ cs) : ∃ e, s'.Owns e ∧ e.tag = c.moved := by
  obtain ⟨j, hj⟩ := List.mem_iff_getElem?.mp hc
  obtain ⟨d, hd, htag⟩ := h.exists_made hj
  have howns := h.owns d (List.mem_of_getElem? hd)
  have hget := h.getElem?_moved j c hj
  rw [← htag, howns.holds.children_tag, List.getElem?_map, Option.map_eq_some_iff] at hget
  obtain ⟨e, he, hmoved⟩ := hget
  exact ⟨e, howns.of_mem_children (List.mem_of_getElem? he), hmoved⟩

/-- Candidates look like the node above the child with the child at one position after the other. -/
theorem MakesCandidates.map_shown (h : s.MakesCandidates s' p i f cs made)
    (hf : p.children[i]? = some f) :
    cs.map s'.shown = (List.range p.children.length).map fun j =>
      ⟨((p.map s.handle).withMoved i j).recorded, j, (f.map s.handle).recorded⟩ := by
  refine List.ext_getElem (by simp [h.length_candidates]) fun j hj _ => ?_
  rw [List.length_map] at hj
  have hc := List.getElem?_eq_getElem hj
  obtain ⟨d, hd, htag⟩ := h.exists_made hc
  obtain ⟨e, he, hmoved⟩ := h.exists_owns_moved (List.getElem_mem hj)
  rw [List.getElem_map, List.getElem_map, List.getElem_range, shown, h.position_eq j _ hc, ← htag,
    (h.owns d (List.mem_of_getElem? hd)).dump_eq, h.map_handle_eq hf hd, ← hmoved, he.dump_eq,
    ← he.labelled_eq, hmoved, h.labelled_moved _ (List.getElem_mem hj)]

/-- Placements are refused exactly if a text and an index name no child, and then nothing is made.
Otherwise the child that is named gets every position once, in order, on copies that share nothing
with the node nor with each other, and what was in the store stays as it is. The candidates of a
child that remembers the node are made of this very child, also where it has equal siblings, and say
at which position its copy is, and which node that is. -/
theorem placements_at_every_position (h : s.Holds p) (wanted : List Char) (index : Option Int) :
    let o := s.placements p.tag wanted index
    ((∃ e, o.result = .error e) ↔ p.NamesNoChild wanted index) ∧
    (∀ e, o.result = .error e → e = .noMatch p.kind wanted ∧ o.store = s) ∧
    (¬ p.NamesNoChild wanted index → ∃ i f made,
      p.NamesChild wanted index i ∧ p.children[i]? = some f ∧
      o.result = .ok (made.map Tree.tag) ∧ s.MakesPlacements o.store p i f made) ∧
    ∀ i f, (p.children.map Tree.tag).Nodup → p.children[i]? = some f →
      s.parent f.tag = some p.tag → ∃ cs made,
        (s.candidates f.tag).result = .ok cs ∧
        s.MakesCandidates (s.candidates f.tag).store p i f cs made := by
  intro o
  refine ⟨?_, fun e he => ?_, fun hnamed => ?_, fun i f hnodup hf hparent => ?_⟩
  · simp [o, h.result_placements_eq_error_iff]
  · obtain ⟨hnone, hmessage⟩ := h.result_placements_eq_error_iff.mp he
    have hmatch := h.childMatching_eq_none_iff.mpr hnone
    exact ⟨hmessage, by simp only [o, placements_eq_of_childMatching_eq_none hmatch]⟩
  · rw [← h.childMatching_eq_none_iff] at hnamed
    obtain ⟨i, hmatch⟩ := Option.ne_none_iff_exists'.mp hnamed
    have hnames := h.childMatching_eq_some_iff.mp hmatch
    obtain ⟨f, hf, -⟩ := hnames.1
    obtain ⟨made, hresult, hmakes, -⟩ := h.exists_placements hmatch hf
    exact ⟨i, f, made, hnames, hf, hresult, hmakes⟩
  · obtain ⟨cs, made, hresult, hmakes, -⟩ := h.exists_candidates_of_nodup hnodup hf hparent
    exact ⟨cs, made, hresult, hmakes⟩

/-- In a sum of three terms of which the outer ones are equal, an index says that the last one is
meant, and so does asking for the candidates of that node. -/
theorem placements_at_every_position_equal_terms :
    let a : Tree (Option Handle) := .literal none ⟨['a'], rfl⟩
    let b : Tree (Option Handle) := .literal none ⟨['b'], rfl⟩
    let sum : Tree (Option Handle) := .branch none (.chain .plus) [a, b, a]
    let s := (∅ : Store).plant sum
    let p := sum.numbered 0
    let last : Tree NodeId := .literal 3 ⟨['a'], rfl⟩
    s.Holds p ∧ ¬ p.NamesNoChild ['a', '\n'] (some 2) ∧
      (∃ made, (s.placements p.tag ['a', '\n'] (some 2)).result = .ok (made.map Tree.tag) ∧
        s.MakesPlacements (s.placements p.tag ['a', '\n'] (some 2)).store p 2 last made) ∧
      (p.children.map Tree.tag).Nodup ∧ s.parent last.tag = some p.tag ∧
      ∃ cs made, (s.candidates last.tag).result = .ok cs ∧
        s.MakesCandidates (s.candidates last.tag).store p 2 last cs made := by
  intro a b sum s p last
  have hholds : s.Holds p := (owns_plant ∅ sum).holds
  have hnodup : (p.children.map Tree.tag).Nodup := by decide
  have hparent : s.parent last.tag = some p.tag := by decide +kernel
  have hnamed : ¬ p.NamesNoChild ['a', '\n'] (some 2) := by
    rw [← hholds.childMatching_eq_none_iff]
    decide +kernel
  obtain ⟨-, -, hmade, hcandidates⟩ := placements_at_every_position hholds ['a', '\n'] (some 2)
  obtain ⟨i, f, made, ⟨-, hindex⟩, hf, hmade⟩ := hmade hnamed
  obtain rfl : 2 = i := Int.ofNat.inj hindex
  obtain rfl : last = f := Option.some.inj hf
  exact ⟨hholds, hnamed, ⟨made, hmade⟩, hnodup, hparent, hcandidates 2 last hnodup rfl hparent⟩

end Store

end Rearrange
