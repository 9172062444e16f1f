import Rearrange.Proofs.Parse.Reading
import Rearrange.Proofs.Placement
import Rearrange.Session.Basic

namespace Rearrange

namespace Store

/-- What splicing a tree into a node comes to: the node gets new children, which are copies of the
children of the tree, and keeps everything else; all other nodes stay as they are. -/
structure Splices (s s' : Store) (target : NodeId) (c : Tree NodeId) (copies : List (Tree NodeId)) :
    Prop extends Grafts s s' target copies where
  kind_eq : s'.kind target = s.kind target
  children_eq : s'.children target = copies.map Tree.tag
  copies_eq : copies.map (Tree.map s'.handle) = c.children.map (Tree.map s.handle)

variable {s s' : Store} {t p c : Tree NodeId} {target : NodeId} {ds : List (Tree NodeId)}

/-- Where children are grafted that are the same as before up to order, the tree around is
rearranged, in every place in which the node stands. -/
theorem Holds.rearranged_graft (ht : s.Holds t) (hp : s.Holds p)
    (hperm : (p.children.map Tree.erase).Perm (ds.map Tree.erase)) :
    t.erase.Rearranged (t.graft p.tag ds).erase := by
  induction ht with
  | literal hid hcontent =>
    rw [Tree.graft_literal]
    exact .refl _
  | @branch id shape cs hid hcontent hcs ih =>
    by_cases htag : id = p.tag
    · obtain rfl := (Holds.branch hid hcontent hcs).eq_of_tag_eq hp htag
      rw [Tree.tag, Tree.graft_branch_self, Tree.erase_branch, Tree.erase_branch]
      exact .perm () shape hperm
    · rw [Tree.graft_branch_of_ne htag, Tree.erase_branch, Tree.erase_branch, List.map_map]
      apply Tree.Rearranged.of_forall₂
      rw [List.forall₂_map_left_iff, List.forall₂_map_right_iff, List.forall₂_same]
      exact ih

/-- A tree that does not show the node stays as it is when trees are grafted below the node. -/
theorem Grafts.holds_of_notMem (h : s.Grafts s' target ds) (hc : s.Holds c)
    (htarget : target ∉ c.tags) : s'.Holds c := by
  refine hc.congr h.size_le fun id hid => ?_
  rw [h.cell_eq id (hc.lt_size hid) (ne_of_mem_of_not_mem hid htarget)]

private theorem kind_withChildren (content : Content) (cs : List NodeId) :
    (content.withChildren cs).kind = content.kind := by
  cases content <;> rfl

/-- A placement is copied, handles included, in its own order. -/
theorem Holds.exists_splices (hc : s.Holds c) {id : NodeId} (htarget : target < s.size)
    (h : (s.splice target c.tag).result = .ok id) :
    ∃ copies, s.Splices (s.splice target c.tag).store target c copies := by
  obtain ⟨copies, hgrafts, hlabels⟩ := hc.exists_grafts_splice htarget h
  refine ⟨copies, hgrafts, ?_, ?_, hlabels⟩
  · rw [Store.kind, hgrafts.content_eq, kind_withChildren, Store.kind]
  · rw [Store.children, hgrafts.content_eq]
    cases hcontent : (s.cell target).content with
    | branch shape cs => rfl
    | literal l =>
      -- A literal is given no children, for the placement is a literal, too.
      obtain ⟨-, hkind, -⟩ := result_splice_eq_ok h
      rw [Store.kind, hcontent, Content.kind, hc.kind_eq] at hkind
      cases c with
      | branch id shape cs => cases hkind
      | literal id m =>
        obtain rfl := List.map_eq_nil_iff.mp hlabels
        rfl

/-- The spliced children are the candidate's. -/
theorem Splices.erase_copies (h : s.Splices s' target c ds) :
    ds.map Tree.erase = c.children.map Tree.erase := by
  have herase := congrArg (List.map Tree.erase) h.copies_eq
  rw [List.map_map, List.map_map] at herase
  simpa only [Function.comp_def, Tree.erase_map] using herase

/-- A splice is refused when the kinds differ or the children do not match. -/
theorem Holds.exists_result_splice_eq_error_iff (ht : s.Holds p) (hc : s.Holds c) :
    (∃ e, (s.splice p.tag c.tag).result = .error e) ↔
      s.kind p.tag ≠ c.kind ∨ ¬ (s.expr p.tag).children.Perm (c.children.map Tree.erase) := by
  have hok : (s.splice p.tag c.tag).result = .ok p.tag ↔ s.kind p.tag = s.kind c.tag ∧
      ((s.children p.tag).map s.expr).Perm ((s.children c.tag).map s.expr) :=
    result_splice_eq_ok_iff
  rw [hc.kind_eq, ht.map_expr_children, hc.map_expr_children, ← Tree.children_erase,
    ← ht.expr_eq] at hok
  rw [← not_and_or, ← hok]
  cases hresult : (s.splice p.tag c.tag).result with
  | error e => simp
  | ok id =>
    obtain ⟨rfl, -⟩ := result_splice_eq_ok hresult
    simp

/-- A session is left as it was when the splice is refused. -/
theorem place_of_splice_eq_error {session : Session} {candidate : Candidate} {e : SpliceError}
    (h : (session.store.splice target candidate.tree).result = .error e) :
    session.place target candidate = { result := .error (.splice e), session } := by
  simp only [Session.place, h, store_splice_of_error h]

/-- Splicing is refused exactly if the kinds differ or the children are not the same trees up to
order. Then nothing is changed in the store, and a session stays as it is. Otherwise the node, which
is what is answered, gets copies of the children of the placement, and nothing else changes in the
tree around the node nor in the placement. If that tree could be written down, it can be written
down afterwards. -/
theorem splice_refused_or_rearranges (ht : s.Holds t) (htarget : target ∈ t.tags)
    (hc : s.Holds c) (hapart : t.tags.Disjoint c.tags) :
    let o := s.splice target c.tag
    ((∃ e, o.result = .error e) ↔
      s.kind target ≠ c.kind ∨ ¬ (s.expr target).children.Perm (c.children.map Tree.erase)) ∧
    (∀ e, o.result = .error e → o.store = s ∧
      ∀ (session : Session) (candidate : Candidate), session.store = s → candidate.tree = c.tag →
        session.place target candidate = { result := .error (.splice e), session }) ∧
    ∀ id, o.result = .ok id → id = target ∧ ∃ copies,
      s.Splices o.store target c copies ∧
      o.store.Holds c ∧ (∀ id ∈ c.tags, o.store.cell id = s.cell id) ∧
      o.store.Holds (t.graft target copies) ∧
      (t.IsCanonical → (o.store.expr t.tag).IsCanonical ∧
        parse (o.store.expr t.tag).flat = .ok (o.store.expr t.tag)) := by
  intro o
  obtain ⟨p, hp, rfl, -⟩ := ht.exists_of_mem htarget
  refine ⟨hp.exists_result_splice_eq_error_iff hc, fun e he => ⟨store_splice_of_error he, ?_⟩,
    fun id hresult => ?_⟩
  · intro session candidate hstore htree
    apply place_of_splice_eq_error
    rwa [hstore, htree]
  · obtain ⟨copies, hsplices⟩ := hc.exists_splices (ht.lt_size htarget) hresult
    obtain ⟨rfl, -, hperm⟩ := result_splice_eq_ok hresult
    have hgrafts := hsplices.toGrafts
    have hafter := hgrafts.holds ht
    have hout : p.tag ∉ c.tags := hapart htarget
    refine ⟨rfl, copies, hsplices, hgrafts.holds_of_notMem hc hout, fun id hid => ?_, hafter,
      fun hcanonical => ?_⟩
    · exact hgrafts.cell_eq id (hc.lt_size hid) (ne_of_mem_of_not_mem hid hout)
    · have hrearranged : t.erase.Rearranged (t.graft p.tag copies).erase := by
        apply ht.rearranged_graft hp
        rwa [hsplices.erase_copies, ← hp.map_expr_children, ← hc.map_expr_children]
      have hexpr : o.store.expr t.tag = (t.graft p.tag copies).erase := by
        rw [← hafter.expr_eq, Tree.tag_graft]
      have hwritten := hrearranged.isCanonical (Tree.isCanonical_erase_iff.mpr hcanonical)
      rw [hexpr]
      exact ⟨hwritten, by rw [parse_flat hwritten, Tree.erase_eq]⟩

/-- A sum of two terms takes the terms of a sum that has them in the other order. -/
theorem splice_refused_or_rearranges_swapped_terms :
    let a : Tree (Option Handle) := .literal (some (.integer 1)) ⟨['a'], rfl⟩
    let b : Tree (Option Handle) := .literal (some (.integer 2)) ⟨['b'], rfl⟩
    let sum : Tree (Option Handle) := .branch none (.chain .plus) [a, b]
    let swapped : Tree (Option Handle) := .branch none (.chain .plus) [b, a]
    let s := ((∅ : Store).plant sum).plant swapped
    let t := sum.numbered 0
    let c := swapped.numbered 3
    let o := s.splice t.tag c.tag
    s.Holds t ∧ t.tag ∈ t.tags ∧ s.Holds c ∧ t.tags.Disjoint c.tags ∧ t.IsCanonical ∧
      o.result = .ok t.tag ∧ ∃ copies, s.Splices o.store t.tag c copies ∧
        (o.store.expr t.tag).IsCanonical ∧
        parse (o.store.expr t.tag).flat = .ok (o.store.expr t.tag) := by
  intro a b sum swapped s t c o
  have ht : s.Holds t :=
    (plants_plant ((∅ : Store).plant sum) swapped).toWithin.holds (owns_plant ∅ sum).holds
  have hc : s.Holds c := (owns_plant ((∅ : Store).plant sum) swapped).holds
  have hapart : t.tags.Disjoint c.tags := List.disjoint_left.mpr (by decide)
  have hcanonical : t.IsCanonical := by
    simp [Tree.isCanonical_chain_iff, Tree.kind, Operator.admits, Tree.IsCanonical.literal, t, sum,
      a, b, Tree.numbered, Tree.numberedAll]
  obtain ⟨hrefused, -, hspliced⟩ :=
    splice_refused_or_rearranges ht t.tag_mem_tags hc hapart
  have hplacement : ¬ (s.kind t.tag ≠ c.kind ∨
      ¬ (s.expr t.tag).children.Perm (c.children.map Tree.erase)) := by
    rw [not_or, not_not, not_not, ht.expr_eq]
    exact ⟨ht.kind_eq, .swap _ _ _⟩
  cases hresult : o.result with
  | error e => exact absurd (hrefused.mp ⟨e, hresult⟩) hplacement
  | ok id =>
    obtain ⟨rfl, copies, hsplices, -, -, -, hwritten⟩ := hspliced id hresult
    exact ⟨ht, t.tag_mem_tags, hc, hapart, hcanonical, rfl, copies, hsplices, hwritten hcanonical⟩

end Store

end Rearrange
