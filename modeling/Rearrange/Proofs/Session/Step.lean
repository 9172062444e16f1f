import Rearrange.Proofs.Session.Move
import Rearrange.Proofs.Session.View

namespace Rearrange

namespace Session

/-- A session about a tree shows a view. -/
structure Shows (s : Session) (t : Tree NodeId) (v : View) : Prop where
  invariant : s.Invariant t
  erase_eq : t.erase = v.expr
  focus_eq : ∃ u, t.subtreeAt? v.place = some u ∧ u.tag = s.focus
  history_eq : s.history = v.history

/-- The focused node of a session is the child with an index of a node at a place, and these are the
candidates for moving it there. -/
structure Offers (s : Session) (t : Tree NodeId) (v : View) (place : List Nat) (index : Nat)
    (p f : Tree NodeId) (cs : List Candidate) : Prop where
  place_eq : v.place = place ++ [index]
  subtreeAt?_eq : t.subtreeAt? place = some p
  getElem?_eq : p.children[index]? = some f
  tag_eq : f.tag = s.focus
  parent_eq : s.store.parent s.focus = some p.tag
  result_eq : (s.store.candidates s.focus).result = .ok cs
  exists_makes : ∃ made,
    s.store.MakesCandidates (s.store.candidates s.focus).store p index f cs made
  notes_eq : (s.store.candidates s.focus).notes =
    [.generated p.children.length f.flat p.kind, .located f.flat index p.children.length]

/-- An outcome answers, up to handles, and shows afterwards what is expected. -/
def Agrees (o : Outcome Answer) (expected : Except SessionError Answer × View) : Prop :=
  o.result.map Answer.bare = expected.1 ∧ ∃ t, Shows o.session t expected.2

variable {s : Session} {t : Tree NodeId} {v : View}

/-- Where an error is expected the operation fails with it. -/
theorem Agrees.result_eq_error {β : Type} {o : Outcome β} {f : β → Answer} {e : SessionError}
    (h : Agrees (o.map f) (.error e, v)) : o.result = .error e := by
  obtain ⟨result, session, notes⟩ := o
  cases result with
  | ok b => cases h.1
  | error e' => exact congrArg Except.error (Except.error.inj h.1)

/-- Where an answer is expected the operation has a result with this answer. -/
theorem Agrees.exists_result_eq_ok {β : Type} {o : Outcome β} {f : β → Answer} {a : Answer}
    (h : Agrees (o.map f) (.ok a, v)) : ∃ b, o.result = .ok b ∧ (f b).bare = a := by
  obtain ⟨result, session, notes⟩ := o
  cases result with
  | ok b => exact ⟨b, rfl, Except.ok.inj h.1⟩
  | error e => cases h.1

/-- A session about a tree shows a view. -/
theorem Invariant.exists_shows (h : s.Invariant t) : ∃ v, Shows s t v := by
  obtain ⟨place, u, hu, hfocus⟩ := Tree.exists_subtreeAt?_of_mem_tags h.focus_mem
  exact ⟨⟨t.erase, place, s.history⟩, h, rfl, ⟨u, hu, hfocus⟩, rfl⟩

/-- A session can be started from every text that can be read. It shows the expression read, with
the focus on all of it. -/
theorem exists_ofText {text : List Char} {e : Expr} (hparse : parse text = .ok e)
    (reparse : Bool) : ∃ s t, ofText text reparse = .ok s ∧ Shows s t { expr := e } := by
  let planted := Store.empty.plant (e.map fun _ => none)
  have hstart : ofText text reparse =
      .ok (load { store := planted, root := 0, focus := 0, reparse } 0) := by
    rw [ofText, hparse]
    rfl
  obtain ⟨t, ht, hread, -⟩ := exists_invariant_ofText hstart
  have herase : t.erase = e := Except.ok.inj (hread.symm.trans hparse)
  exact ⟨_, t, hstart, ht, herase, ⟨t, t.subtreeAt?_nil, ht.tag_eq⟩, rfl⟩

/-- A session about a flat expression shows it, with the focus on all of it. -/
theorem exists_shows_ofExpr {e : Expr} (hflat : e.isFlat = true) (reparse : Bool) :
    ∃ t, Shows (ofExpr e reparse) t { expr := e } := by
  have hexpr : (Store.empty.plant (e.map fun _ => none)).expr 0 = e := Store.empty.expr_plant e
  obtain ⟨t, ht, herase⟩ := exists_invariant_ofNode_of_isFlat (hexpr.symm ▸ hflat) reparse
  exact ⟨t, ht, herase.trans hexpr, ⟨t, t.subtreeAt?_nil, ht.tag_eq⟩, rfl⟩

theorem Shows.expr_eq (h : Shows s t v) : s.expr = v.expr :=
  h.invariant.expr_eq.trans h.erase_eq

/-- The subtrees of the view are those of the tree. -/
theorem Shows.subtreeAt? (h : Shows s t v) (place : List Nat) :
    v.expr.subtreeAt? place = (t.subtreeAt? place).map Tree.erase := by
  rw [← h.erase_eq]
  exact Tree.subtreeAt?_map _ t place

/-- The focused part of the view is the subtree at the place. -/
theorem Shows.part_eq (h : Shows s t v) {u : Tree NodeId} (hu : t.subtreeAt? v.place = some u) :
    v.part = u.erase := by
  rw [View.part, h.subtreeAt?, hu]
  rfl

/-- A node is written as the subtree below it. -/
theorem Shows.label_eq (h : Shows s t v) {place : List Nat} {u : Tree NodeId}
    (hu : t.subtreeAt? place = some u) : s.label u.tag = u.erase.label := by
  rw [label, (h.invariant.owns.subtreeAt? hu).expr_eq]

/-- The focus is written as the focused part. -/
theorem Shows.label_focus (h : Shows s t v) : s.label s.focus = v.part.label := by
  obtain ⟨u, hu, hfocus⟩ := h.focus_eq
  rw [← hfocus, h.label_eq hu, h.part_eq hu]

theorem Shows.focusPath_eq (h : Shows s t v) : s.focusPath = .ok v.place := by
  obtain ⟨u, hu, hfocus⟩ := h.focus_eq
  rw [focusPath, ← hfocus]
  exact h.invariant.owns.childPath_eq (h.invariant.tag_eq ▸ h.invariant.parent_root) hu

/-- A focus on the node at another place shows this place. -/
theorem Shows.refocus (h : Shows s t v) {place : List Nat} {u : Tree NodeId}
    (hu : t.subtreeAt? place = some u) :
    Shows { s with focus := u.tag } t { v with place } := by
  have hmem := Tree.tags_subset_of_subtreeAt? hu u.tag_mem_tags
  exact ⟨h.invariant.refocus hmem s.history s.reparse, h.erase_eq, ⟨u, hu, rfl⟩, h.history_eq⟩

/-- A view says nothing of whether commits read their text again. -/
theorem Shows.setReparse (h : Shows s t v) (reparse : Bool) : Shows { s with reparse } t v :=
  ⟨h.invariant.refocus h.invariant.focus_mem s.history reparse, h.erase_eq, h.focus_eq,
    h.history_eq⟩

/-- A reset shows the root. -/
theorem Shows.reset (h : Shows s t v) : Shows s.reset.session t { v with place := [] } := by
  have hroot := h.refocus (Tree.subtreeAt?_nil t)
  rwa [h.invariant.tag_eq] at hroot

/-- Focusing the node at a place answers its label. -/
theorem Shows.focused (h : Shows s t v) {place : List Nat} {u : Tree NodeId}
    (hu : t.subtreeAt? place = some u) :
    Agrees ⟨.ok (.focused (s.label u.tag)), { s with focus := u.tag }, []⟩
      (.ok (.focused u.erase.label), { v with place }) := by
  refine ⟨?_, t, h.refocus hu⟩
  rw [h.label_eq hu]
  rfl

/-- Selecting a child does to the session what it does to the view. -/
theorem Shows.select (h : Shows s t v) (index : Int) :
    Agrees (s.perform (.select index)) (v.step s.reparse (.select index)) := by
  obtain ⟨u, hu, hfocus⟩ := h.focus_eq
  have howns := h.invariant.owns.subtreeAt? hu
  have hchildren : v.part.children = u.children.map Tree.erase := by
    rw [h.part_eq hu]
    exact Tree.children_map _ u
  have hkind : v.part.kind = s.store.kind s.focus := by
    rw [h.part_eq hu, Tree.erase, Tree.kind_map, ← hfocus, howns.holds.kind_eq]
  rw [perform, Session.select, View.step, hchildren, hkind, ← hfocus, howns.holds.children_tag,
    elementAt?_map, elementAt?_map, List.length_map, List.length_map]
  cases hchild : elementAt? u.children index with
  | none => exact ⟨rfl, t, h⟩
  | some c =>
    obtain ⟨i, rfl, hc⟩ := elementAt?_eq_some_iff.mp hchild
    have hplace : t.subtreeAt? (v.place ++ [i]) = some c := by rw [Tree.subtreeAt?_concat hu, hc]
    exact h.focused hplace

/-- Selecting by a path does to the session what it does to the view. -/
theorem Shows.selectPath (h : Shows s t v) (path : List Int) :
    Agrees (s.perform (.selectPath path)) (v.step s.reparse (.selectPath path)) := by
  have hfollow : v.expr.followFrom 0 path = (t.followFrom 0 path).map Tree.erase := by
    rw [← h.erase_eq]
    exact Tree.followFrom_map _ t 0 path
  have hnode : s.store.nodeAt s.root path = (t.followFrom 0 path).map Tree.tag := by
    rw [Store.nodeAt, ← h.invariant.tag_eq, h.invariant.owns.nodeFrom_eq]
  rw [perform, Session.selectPath, View.step, hnode, hfollow]
  cases hfound : t.followFrom 0 path with
  | error e => exact ⟨rfl, t, h⟩
  | ok u => exact h.focused (Tree.subtreeAt?_of_followFrom hfound)

/-- A session shows the same whatever else there is in its store. -/
theorem Shows.within (h : Shows s t v) {store : Store} (hwithin : s.store.Within store) :
    Shows { s with store } t v :=
  ⟨h.invariant.within hwithin, h.erase_eq, h.focus_eq, h.history_eq⟩

/-- The root has no candidates; every other node is the child of one that it can be moved in. -/
theorem Shows.root_or_offers (h : Shows s t v) :
    v.place = [] ∧ s.store.candidates s.focus = { result := .ok [], store := s.store } ∨
      ∃ place index p f cs, Offers s t v place index p f cs := by
  obtain ⟨f, hf, hfocus⟩ := h.focus_eq
  obtain hplace | ⟨place, index, hplace⟩ := List.eq_nil_or_concat v.place
  · left
    rw [hplace] at hf
    obtain rfl := Option.some.inj hf
    refine ⟨hplace, ?_⟩
    rw [Store.candidates, ← hfocus, h.invariant.tag_eq, h.invariant.parent_root]
  · right
    rw [List.concat_eq_append] at hplace
    rw [hplace] at hf
    obtain ⟨p, hp, hchild⟩ := Tree.exists_subtreeAt?_of_concat hf
    have howns := h.invariant.owns.subtreeAt? hp
    have hparent := howns.parent_eq hchild
    obtain ⟨cs, made, hresult, hmakes, hnotes⟩ :=
      howns.holds.exists_candidates (howns.idxOf?_eq hchild) hchild hparent
    rw [hfocus] at hparent hresult hmakes hnotes
    exact ⟨place, index, p, f, cs, hplace, hp, hchild, hfocus, hparent, hresult, ⟨made, hmakes⟩,
      hnotes⟩

/-- A focused node that is the child of another one has candidates there. -/
theorem Shows.exists_offers (h : Shows s t v) {place : List Nat} {index : Nat} {p : Tree NodeId}
    (hplace : v.place = place ++ [index]) (hp : t.subtreeAt? place = some p) :
    ∃ f cs, Offers s t v place index p f cs := by
  obtain ⟨hnil, -⟩ | ⟨place', index', p', f, cs, hoffers⟩ := h.root_or_offers
  · rw [hplace] at hnil
    exact absurd hnil (List.append_ne_nil_of_right_ne_nil _ (List.cons_ne_nil index []))
  · obtain ⟨rfl, hindex⟩ := List.append_inj' (hplace.symm.trans hoffers.place_eq) rfl
    obtain rfl : index = index' := by simpa using hindex
    obtain rfl := Option.some.inj (hp.symm.trans hoffers.subtreeAt?_eq)
    exact ⟨f, cs, hoffers⟩

namespace Offers

variable {place : List Nat} {index target : Nat} {p f : Tree NodeId} {cs : List Candidate}
  {position : Int} {c : Candidate}

/-- Making the candidates changes no node that is there. -/
theorem within (h : Offers s t v place index p f cs) :
    s.store.Within (s.store.candidates s.focus).store := by
  obtain ⟨made, hmakes⟩ := h.exists_makes
  exact hmakes.toWithin

theorem length_eq (h : Offers s t v place index p f cs) : cs.length = p.children.length := by
  obtain ⟨made, hmakes⟩ := h.exists_makes
  exact hmakes.length_candidates

theorem index_lt (h : Offers s t v place index p f cs) : index < p.children.length :=
  (List.getElem?_eq_some_iff.mp h.getElem?_eq).1

/-- The store owns the tree below the node above. -/
theorem owns (h : Offers s t v place index p f cs) (hshows : Shows s t v) : s.store.Owns p :=
  hshows.invariant.owns.subtreeAt? h.subtreeAt?_eq

/-- Candidates look like the node above the focused one with the focused one at one position after
the other. -/
theorem map_shown (h : Offers s t v place index p f cs) :
    cs.map (s.store.candidates s.focus).store.shown =
      (List.range p.children.length).map fun position =>
        ⟨((p.map s.store.handle).withMoved index position).recorded, position,
          (f.map s.store.handle).recorded⟩ := by
  obtain ⟨made, hmakes⟩ := h.exists_makes
  exact hmakes.map_shown h.getElem?_eq

/-- Without their handles, these are the placements that one sees. -/
theorem map_bare_map_shown (h : Offers s t v place index p f cs) (hshows : Shows s t v) :
    (cs.map (s.store.candidates s.focus).store.shown).map Placement.bare = v.candidates := by
  have haround : v.expr.subtreeAt? place = some p.erase := by
    rw [hshows.subtreeAt?, h.subtreeAt?_eq]
    rfl
  have hpart : v.part = f.erase := by
    apply hshows.part_eq
    rw [h.place_eq, Tree.subtreeAt?_concat h.subtreeAt?_eq, h.getElem?_eq]
  have hbare : ∀ u : Tree (Option Handle), u.recorded.map Store.Record.bare =
      u.erase.map fun _ => ⟨none, true⟩ := fun u => by
    rw [Tree.recorded, Tree.map_map, Tree.erase, Tree.map_map]
    rfl
  rw [h.map_shown, View.candidates_concat h.place_eq haround, List.map_map, Tree.children_erase,
    List.length_map]
  refine List.map_congr_left fun position _ => ?_
  rw [Function.comp_apply, Placement.bare, hbare, hbare, Tree.erase_map, View.placement, hpart,
    Tree.erase, Tree.map_withMoved, ← Tree.erase, Tree.erase_map]

/-- What previewing a position comes to: the candidate there on the nodes made for it, or nothing
at all if there is none. -/
theorem preview_eq (h : Offers s t v place index p f cs) (position : Int) :
    s.preview position = match elementAt? cs position with
      | some c =>
        { result := .ok c
          session := { s with store := (s.store.candidates s.focus).store }
          notes := (s.store.candidates s.focus).notes }
      | none =>
        { result := .error (.lookup (.noPosition position (cs.length - 1)))
          session := s
          notes := (s.store.candidates s.focus).notes } := by
  have hlt := h.index_lt
  rw [← h.length_eq] at hlt
  -- A preview that fails gives back the store before the candidates were made.
  have hresult := h.result_eq
  have hupTo := h.within.upTo_eq
  rw [preview]
  generalize s.store.candidates s.focus = o at hresult hupTo ⊢
  obtain ⟨result, grown, notes⟩ := o
  obtain rfl : result = .ok cs := hresult
  cases cs with
  | nil => exact absurd hlt (Nat.not_lt_zero index)
  | cons first others =>
    cases hchosen : elementAt? (first :: others) position with
    | none => simp only [hchosen, hupTo]
    | some c => simp only [hchosen]

/-- A candidate at a position stands for the placement there. -/
theorem places (h : Offers s t v place index p f cs) (hshows : Shows s t v)
    (hc : cs[target]? = some c) :
    c.Places (s.store.candidates s.focus).store p index target := by
  obtain ⟨made, hmakes⟩ := h.exists_makes
  exact hmakes.places (h.owns hshows).holds h.getElem?_eq hc

/-- A move to a position that has a candidate places this candidate. -/
theorem moveTo_eq (h : Offers s t v place index p f cs) (hshows : Shows s t v)
    (hc : cs[target]? = some c) :
    let grown : Session := { s with store := (s.store.candidates s.focus).store }
    let placed := grown.place p.tag c
    s.moveTo target =
      { placed with notes := (s.store.candidates s.focus).notes ++ placed.notes } := by
  have hfocus := hshows.invariant.owns.holds.lt_size hshows.invariant.focus_mem
  have hparent := (h.within.parent_eq hfocus).trans h.parent_eq
  have hchosen : elementAt? cs target = some c := elementAt?_eq_some_iff.mpr ⟨target, rfl, hc⟩
  simp only [moveTo, h.preview_eq, hchosen, hparent]

/-- A move to a position that has a candidate succeeds. The labels are then those of the placement,
and the focus is the child at the position. -/
theorem moveTo_spec (h : Offers s t v place index p f cs) (hshows : Shows s t v)
    (htarget : target < p.children.length) :
    let o := s.moveTo target
    (o.result = .ok () ∧ o.notes = (s.store.candidates s.focus).notes ++
        [.moved target o.session.text]) ∧
      (o.session.root = s.root ∧ o.session.history = s.history ∧
        o.session.nextHandle = s.nextHandle ∧ o.session.reparse = s.reparse) ∧
      ∃ t' p' d, o.session.Invariant t' ∧
        t'.map o.session.store.handle = Tree.replaceAt
          ((p.map s.store.handle).withMoved index target) (t.map s.store.handle) place ∧
        (t'.subtreeAt? place = some p' ∧ p'.tag = p.tag) ∧
        t'.subtreeAt? (place ++ [target]) = some d ∧ d.tag = o.session.focus := by
  have htarget' : target < cs.length := h.length_eq ▸ htarget
  have hc := List.getElem?_eq_getElem htarget'
  have hplaced := (hshows.invariant.within h.within).place h.subtreeAt?_eq (h.places hshows hc)
  obtain ⟨⟨hresult, hnotes⟩, hkept, t', p', d, hinvariant, hlabels, hrest⟩ := hplaced
  rw [h.within.map_handle_eq (h.owns hshows).holds,
    h.within.map_handle_eq hshows.invariant.owns.holds] at hlabels
  rw [h.moveTo_eq hshows hc]
  exact ⟨⟨hresult, congrArg _ hnotes⟩, hkept, t', p', d, hinvariant, hlabels, hrest⟩

end Offers

/-- Candidates of the session are those of the view. -/
theorem Shows.candidates (h : Shows s t v) :
    Agrees (s.perform .candidates) (v.step s.reparse .candidates) := by
  obtain ⟨hplace, hcs⟩ | ⟨place, index, p, f, cs, hoffers⟩ := h.root_or_offers
  · simp only [perform, Session.candidates, hcs, View.step, View.candidates_of_place_eq_nil hplace]
    exact ⟨rfl, t, h⟩
  · rw [View.step, ← hoffers.map_bare_map_shown h]
    simp only [perform, Session.candidates, hoffers.result_eq]
    exact ⟨rfl, t, h.within hoffers.within⟩

/-- Nothing is previewed where the root is focused. -/
theorem preview_of_root (hcs : s.store.candidates s.focus = { result := .ok [], store := s.store })
    (position : Int) : s.preview position =
      { result := .error (.lookup .rootHasNoSiblings)
        session := s
        notes := [.rootPreviewed] } := by
  simp only [Session.preview, hcs, (Store.Within.refl s.store).upTo_eq]
  rfl

/-- A preview in the session is that of the view. -/
theorem Shows.preview (h : Shows s t v) (position : Int) :
    Agrees (s.perform (.preview position)) (v.step s.reparse (.preview position)) := by
  obtain ⟨hplace, hcs⟩ | ⟨place, index, p, f, cs, hoffers⟩ := h.root_or_offers
  · simp only [perform, preview_of_root hcs, View.step, View.preview,
      View.candidates_of_place_eq_nil hplace]
    exact ⟨rfl, t, h⟩
  · have hcandidates := hoffers.map_bare_map_shown h
    have hlength : cs.length = v.candidates.length := by
      rw [← hcandidates, List.length_map, List.length_map]
    have hnil : v.candidates ≠ [] := by
      rw [← List.length_pos_iff, ← hlength, hoffers.length_eq]
      exact Nat.zero_lt_of_lt hoffers.index_lt
    have hchosen : elementAt? v.candidates position = (elementAt? cs position).map fun c =>
        ((s.store.candidates s.focus).store.shown c).bare := by
      rw [← hcandidates, elementAt?_map, elementAt?_map, Option.map_map]
      rfl
    rw [View.step, View.preview_of_candidates_ne_nil hnil, hchosen, ← hlength]
    simp only [perform, hoffers.preview_eq]
    cases elementAt? cs position with
    | none => exact ⟨rfl, t, h⟩
    | some c => exact ⟨rfl, t, h.within hoffers.within⟩

/-- Either there is no candidate at a position, and nothing is changed, or the position is one among
the siblings of the focused node. -/
theorem Shows.preview_fails_or_offers (h : Shows s t v) (position : Int) :
    (∃ e, (s.preview position).result = .error e ∧ (s.preview position).session = s) ∨
      ∃ place index p f cs, ∃ target : Nat, Offers s t v place index p f cs ∧
        position = target ∧ target < p.children.length := by
  obtain ⟨-, hcs⟩ | ⟨place, index, p, f, cs, hoffers⟩ := h.root_or_offers
  · left
    rw [preview_of_root hcs]
    exact ⟨_, rfl, rfl⟩
  · cases hchosen : elementAt? cs position with
    | none =>
      left
      rw [hoffers.preview_eq, hchosen]
      exact ⟨_, rfl, rfl⟩
    | some c =>
      obtain ⟨target, rfl, hc⟩ := elementAt?_eq_some_iff.mp hchosen
      exact .inr ⟨place, index, p, f, cs, target, hoffers, rfl,
        hoffers.length_eq ▸ (List.getElem?_eq_some_iff.mp hc).1⟩

/-- A move that cannot be previewed fails as the preview does and leaves the same behind. -/
theorem moveTo_of_preview_eq_error {position : Int} {e : SessionError}
    (h : (s.preview position).result = .error e) : s.moveTo position =
      { result := .error e
        session := (s.preview position).session
        notes := (s.preview position).notes } := by
  simp only [Session.moveTo, h]

/-- Nothing is moved where the root is focused. -/
theorem moveTo_of_root (hcs : s.store.candidates s.focus = { result := .ok [], store := s.store })
    (position : Int) : s.moveTo position =
      { result := .error (.lookup .rootHasNoSiblings)
        session := s
        notes := [.rootPreviewed] } := by
  have hpreview := preview_of_root hcs position
  rw [moveTo_of_preview_eq_error (congrArg Outcome.result hpreview), hpreview]

/-- A move to a position that has no candidate leaves the session as it is. -/
theorem Offers.moveTo_of_none {place : List Nat} {index : Nat} {position : Int}
    {p f : Tree NodeId} {cs : List Candidate} (hoffers : Offers s t v place index p f cs)
    (hnone : elementAt? cs position = none) :
    (s.moveTo position).session = s ∧
      (s.moveTo position).notes = (s.store.candidates s.focus).notes := by
  have hpreview := hoffers.preview_eq position
  rw [hnone] at hpreview
  rw [moveTo_of_preview_eq_error (congrArg Outcome.result hpreview), hpreview]
  exact ⟨rfl, rfl⟩

/-- A move of the focused node to a position among its siblings is seen as a move. -/
theorem Offers.shows_moveTo {place : List Nat} {index target : Nat} {p f : Tree NodeId}
    {cs : List Candidate} (hoffers : Offers s t v place index p f cs) (h : Shows s t v)
    (htarget : target < p.children.length) :
    ∃ t', Shows (s.moveTo target).session t'
      { v with
        expr := Tree.replaceAt (p.erase.withMoved index target) v.expr place
        place := place ++ [target] } := by
  obtain ⟨-, ⟨-, hhistory, -⟩, t', -, d, hinvariant, hlabels, -, hd, hfocus⟩ :=
    hoffers.moveTo_spec h htarget
  refine ⟨t', hinvariant, ?_, ⟨d, hd, hfocus⟩, hhistory.trans h.history_eq⟩
  have hexpr := congrArg Tree.erase hlabels
  simp only [Tree.erase, Tree.map_replaceAt, Tree.map_withMoved, Tree.map_map] at hexpr
  rw [← h.erase_eq]
  exact hexpr

/-- A move does to the session what it does to the view. -/
theorem Shows.moveTo (h : Shows s t v) (position : Int) :
    Agrees (s.perform (.moveTo position)) (v.step s.reparse (.moveTo position)) := by
  obtain ⟨e, hresult, hsession⟩ | ⟨place, index, p, f, cs, target, hoffers, rfl, htarget⟩ :=
    h.preview_fails_or_offers position
  · have hseen : v.preview position = .error e := by
      obtain ⟨hanswer, -⟩ := h.preview position
      simp only [perform, Outcome.map, hresult, View.step] at hanswer
      cases hview : v.preview position with
      | error e' =>
        rw [hview] at hanswer
        exact congrArg Except.error (Except.error.inj hanswer).symm
      | ok c =>
        rw [hview] at hanswer
        cases hanswer
    rw [View.step, View.moveTo, hseen]
    simp only [perform, moveTo_of_preview_eq_error hresult, hsession]
    exact ⟨rfl, t, h⟩
  · have haround : v.expr.subtreeAt? place = some p.erase := by
      rw [h.subtreeAt?, hoffers.subtreeAt?_eq]
      rfl
    have hcount : p.erase.children.length = p.children.length := by
      rw [Tree.children_erase, List.length_map]
    obtain ⟨⟨hresult, -⟩, -⟩ := hoffers.moveTo_spec h htarget
    obtain ⟨t', hshows⟩ := hoffers.shows_moveTo h htarget
    rw [View.step, View.moveTo_eq hoffers.place_eq haround (hcount ▸ htarget)]
    refine ⟨?_, t', hshows⟩
    simp only [perform, Outcome.map, hresult]
    exact congrArg (fun e => Except.ok (Answer.moved e.label)) hshows.expr_eq

/-- A commit does to the session what it does to the view. -/
theorem Shows.commit (h : Shows s t v) :
    Agrees (s.perform .commit) (v.step s.reparse .commit) := by
  have htext : s.text = v.expr.flat := congrArg Tree.flat h.expr_eq
  have hhistory : s.history ++ [v.expr.flat] = v.history ++ [v.expr.flat] := by rw [h.history_eq]
  rw [perform, Session.commit, View.step, View.commit, htext]
  by_cases hreparse : s.reparse = true
  · rw [if_pos hreparse, if_pos hreparse]
    cases hparse : parse v.expr.flat with
    | error e => exact ⟨rfl, t, h⟩
    | ok e =>
      obtain ⟨t', ht', rfl⟩ := exists_invariant_load_plant s (parse_eq_ok_iff.mp hparse).1.isFlat
      have hroot : t'.subtreeAt? [] = some t' := t'.subtreeAt?_nil
      exact ⟨rfl, t', ht'.refocus ht'.focus_mem _ _, rfl, ⟨t', hroot, ht'.tag_eq⟩, hhistory⟩
  · rw [if_neg hreparse, if_neg hreparse]
    have hroot := h.reset
    exact ⟨rfl, t, h.invariant.refocus h.invariant.root_mem _ _, h.erase_eq, hroot.focus_eq,
      hhistory⟩

theorem handle_sweep (s : Session) : s.sweep.store.handle = s.store.handle :=
  funext fun id => Store.handle_sweep _ _ id

/-- Sweeping keeps a session about its tree. -/
theorem Invariant.sweep (h : s.Invariant t) : s.sweep.Invariant t := by
  constructor
  · exact h.tag_eq
  · exact h.owns.sweep (h.tag_eq ▸ List.mem_cons_self)
  · exact Store.parent_sweep_eq_none h.parent_root
  · exact h.focus_mem
  · rw [handle_sweep]
    exact h.handles_nodup
  · rw [handle_sweep]
    exact h.handles_lt
  · exact h.isFlat

/-- Sweeping cannot be seen. -/
theorem Shows.sweep (h : Shows s t v) : Shows s.sweep t v :=
  ⟨h.invariant.sweep, h.erase_eq, h.focus_eq, h.history_eq⟩

/-- Every command does to the session what it does to the view. -/
theorem Shows.perform (h : Shows s t v) (c : Command) :
    Agrees (s.perform c) (v.step s.reparse c) := by
  cases c with
  | select index => exact h.select index
  | selectPath path => exact h.selectPath path
  | reset => exact ⟨rfl, t, h.reset⟩
  | candidates => exact h.candidates
  | preview position => exact h.preview position
  | moveTo position => exact h.moveTo position
  | commit => exact h.commit

/-- A command does to a session what it does to the view that the session shows. -/
theorem Shows.step (h : Shows s t v) (c : Command) : Agrees (s.step c) (v.step s.reparse c) := by
  obtain ⟨hresult, t', ht'⟩ := h.perform c
  exact ⟨hresult, t', ht'.sweep⟩

end Session

end Rearrange
