import Rearrange.Proofs.Session.Labels

namespace Rearrange

/-- All that a session shows without its nodes: the expression with all handles, the place of the
focus and the handle there, the history, and the next handle. -/
structure Snapshot where
  labelled : Tree (Option Handle)
  focusPath : Except LookupError (List Nat)
  focusHandle : Option Handle
  history : List (List Char)
  nextHandle : Nat

namespace Session

/-- All that the session shows without its nodes. -/
def snapshot (s : Session) : Snapshot :=
  ⟨s.labelled, s.focusPath, s.store.handle s.focus, s.history, s.nextHandle⟩

/-- The answers with their handles, the notes and the snapshots of a run in which each command comes
with the setting that says whether a commit reads its text again. -/
def transcript (s : Session) :
    List (Command × Bool) → List (Except SessionError Answer × List Note × Snapshot)
  | [] => []
  | (c, reparse) :: rest =>
    let o := step { s with reparse } c
    (o.result, o.notes, o.session.snapshot) :: o.session.transcript rest

/-- The sessions are about the same expression, with the same handles in order, the same focus and
history, and will give out the same handles. -/
structure Twins (s s' : Session) : Prop where
  exists_view : ∃ v, (∃ t, Shows s t v) ∧ ∃ t, Shows s' t v
  handles_eq : s.handles = s'.handles
  nextHandle_eq : s.nextHandle = s'.nextHandle
  reparse_eq : s.reparse = s'.reparse

/-- The outcomes answer and note the same and leave twins behind. -/
structure TwinOutcomes {α : Type} (o o' : Outcome α) : Prop where
  result_eq : o.result = o'.result
  notes_eq : o.notes = o'.notes
  twins : Twins o.session o'.session

/-- The second session is the first one with another focus at most and with more in its store. -/
def Looked (s s' : Session) : Prop :=
  ∃ store focus, s.store.Within store ∧ s' = { s with store, focus }

variable {s s' : Session} {t t' : Tree NodeId} {v : View}

theorem looked_focus (s : Session) (focus : NodeId) : s.Looked { s with focus } :=
  ⟨s.store, focus, .refl s.store, rfl⟩

theorem looked_refl (s : Session) : s.Looked s :=
  s.looked_focus s.focus

/-- New nodes do not show in the handles of a session. -/
theorem Shows.handles_within (h : Shows s t v) {store : Store} (hwithin : s.store.Within store)
    {focus : NodeId} : handles { s with store, focus } = s.handles := by
  have hhandles := (h.within hwithin).invariant.handles_eq
  rw [hwithin.map_handle_eq h.invariant.owns.holds, ← h.invariant.handles_eq] at hhandles
  exact hhandles

theorem erase_labelled (s : Session) : s.labelled.erase = s.expr :=
  Tree.erase_map _ _

theorem tags_labelled (s : Session) : s.labelled.tags = s.handles :=
  Tree.tags_map _ _

/-- The expression and its handles make up the labels. -/
theorem labelled_eq_of_handles_eq (hexpr : s.expr = s'.expr) (hhandles : s.handles = s'.handles) :
    s.labelled = s'.labelled := by
  apply Tree.eq_of_erase_eq_of_tags_eq
  · rw [erase_labelled, erase_labelled, hexpr]
  · rw [tags_labelled, tags_labelled, hhandles]

namespace Twins

theorem expr_eq (h : Twins s s') : s.expr = s'.expr := by
  obtain ⟨v, ⟨t, ht⟩, t', ht'⟩ := h.exists_view
  rw [ht.expr_eq, ht'.expr_eq]

theorem text_eq (h : Twins s s') : s.text = s'.text :=
  congrArg Tree.flat h.expr_eq

theorem labelled_eq (h : Twins s s') : s.labelled = s'.labelled :=
  labelled_eq_of_handles_eq h.expr_eq h.handles_eq

theorem history_eq (h : Twins s s') : s.history = s'.history := by
  obtain ⟨v, ⟨t, ht⟩, t', ht'⟩ := h.exists_view
  rw [ht.history_eq, ht'.history_eq]

/-- Twins have the same snapshot. -/
theorem snapshot_eq (h : Twins s s') : s.snapshot = s'.snapshot := by
  obtain ⟨v, ⟨t, ht⟩, t', ht'⟩ := h.exists_view
  have halike := ht.carries.alike (h.labelled_eq ▸ ht'.carries)
  rw [snapshot, snapshot, h.labelled_eq, halike.focusPath_eq, halike.handle_focus, h.history_eq,
    h.nextHandle_eq]

/-- Twins stay twins when both are told the same about reading their text. -/
theorem setReparse (h : Twins s s') (reparse : Bool) :
    Twins { s with reparse } { s' with reparse } := by
  obtain ⟨v, ⟨t, ht⟩, t', ht'⟩ := h.exists_view
  exact ⟨⟨v, ⟨t, ht.setReparse reparse⟩, t', ht'.setReparse reparse⟩, h.handles_eq,
    h.nextHandle_eq, rfl⟩

/-- Twins stay twins when both are swept. -/
theorem sweep (h : Twins s s') : Twins s.sweep s'.sweep := by
  obtain ⟨v, ⟨t, ht⟩, t', ht'⟩ := h.exists_view
  have hhandles : ∀ {s : Session} {t : Tree NodeId}, Shows s t v → s.sweep.handles = s.handles := by
    intro s t ht
    rw [ht.sweep.invariant.handles_eq, ht.invariant.handles_eq, handle_sweep]
  refine ⟨⟨v, ⟨t, ht.sweep⟩, t', ht'.sweep⟩, ?_, h.nextHandle_eq, h.reparse_eq⟩
  rw [hhandles ht, hhandles ht', h.handles_eq]

end Twins

/-- What there is to choose from, as it is looked at, and the notes left, follow from the labels
around the focused node. -/
theorem Shows.offers_labelled (h : Shows s t v) {around : List Nat} {index : Nat}
    {p c : Tree (Option Handle)} (hplace : v.place = around ++ [index])
    (hp : s.labelled.subtreeAt? around = some p) (hc : p.children[index]? = some c) :
    ∃ q f cs, Offers s t v around index q f cs ∧ q.children.length = p.children.length ∧
      q.map s.store.handle = p ∧
      cs.map (s.store.candidates s.focus).store.shown =
        (List.range p.children.length).map (fun position =>
          ⟨(p.withMoved index position).recorded, position, c.recorded⟩) ∧
      (s.store.candidates s.focus).notes = [.generated p.children.length c.flat p.kind,
        .located c.flat index p.children.length] := by
  rw [h.invariant.labelled_eq, Tree.subtreeAt?_map, Option.map_eq_some_iff] at hp
  obtain ⟨q, hq, rfl⟩ := hp
  obtain ⟨f, cs, hoffers⟩ := h.exists_offers hplace hq
  rw [Tree.children_map, List.getElem?_map, hoffers.getElem?_eq, Option.map_some] at hc
  obtain rfl := Option.some.inj hc
  have hcount : (q.map s.store.handle).children.length = q.children.length := by
    rw [Tree.children_map, List.length_map]
  refine ⟨q, f, cs, hoffers, hcount.symm, rfl, ?_, ?_⟩
  · rw [hoffers.map_shown, hcount]
  · rw [hoffers.notes_eq, hcount, Tree.flat_map, Tree.kind_map]

/-- Twins have both the root focused, or both a node with the same candidates to look at. -/
theorem Twins.root_or_offers (h : Twins s s') :
    (s.store.candidates s.focus = { result := .ok [], store := s.store } ∧
      s'.store.candidates s'.focus = { result := .ok [], store := s'.store }) ∨
    ∃ v t t' around index p p' f f' cs cs', Shows s t v ∧ Shows s' t' v ∧
      Offers s t v around index p f cs ∧ Offers s' t' v around index p' f' cs' ∧
      p.map s.store.handle = p'.map s'.store.handle ∧
      cs.map (s.store.candidates s.focus).store.shown =
        cs'.map (s'.store.candidates s'.focus).store.shown ∧
      (s.store.candidates s.focus).notes = (s'.store.candidates s'.focus).notes := by
  obtain ⟨v, ⟨t, ht⟩, t', ht'⟩ := h.exists_view
  obtain hplace | ⟨around, index, hplace⟩ := List.eq_nil_or_concat v.place
  · have hroot : ∀ {s : Session} {t : Tree NodeId}, Shows s t v →
        s.store.candidates s.focus = { result := .ok [], store := s.store } := by
      intro s t ht
      obtain ⟨-, hcs⟩ | ⟨place, index, p, f, cs, hoffers⟩ := ht.root_or_offers
      · exact hcs
      · exact absurd (hplace.symm.trans hoffers.place_eq) (by simp)
    exact .inl ⟨hroot ht, hroot ht'⟩
  · rw [List.concat_eq_append] at hplace
    obtain ⟨c, hc, -⟩ := ht.carries.exists_focus
    obtain ⟨p, hp, hc⟩ := Tree.exists_subtreeAt?_of_concat (hplace ▸ hc)
    obtain ⟨q, f, cs, hoffers, -, hlabels, hshown, hnotes⟩ := ht.offers_labelled hplace hp hc
    obtain ⟨q', f', cs', hoffers', -, hlabels', hshown', hnotes'⟩ :=
      ht'.offers_labelled hplace (h.labelled_eq ▸ hp) hc
    exact .inr ⟨v, t, t', around, index, q, q', f, f', cs, cs', ht, ht', hoffers, hoffers',
      hlabels.trans hlabels'.symm, hshown.trans hshown'.symm, hnotes.trans hnotes'.symm⟩

/-- What a move to a position among the siblings leaves behind: the labels with the placement in its
place, and a note of it after those on the candidates. -/
theorem Offers.moveTo_labelled {around : List Nat} {index target : Nat} {p f : Tree NodeId}
    {cs : List Candidate} (hoffers : Offers s t v around index p f cs) (h : Shows s t v)
    (htarget : target < p.children.length) :
    let o := s.moveTo target
    o.result = .ok () ∧
      o.notes = (s.store.candidates s.focus).notes ++ [.moved target o.session.text] ∧
      o.session.labelled =
        Tree.replaceAt ((p.map s.store.handle).withMoved index target) s.labelled around ∧
      o.session.nextHandle = s.nextHandle ∧ o.session.reparse = s.reparse := by
  obtain ⟨⟨hresult, hnotes⟩, ⟨-, -, hnext, hreparse⟩, t', -, -, hinvariant, hlabels, -⟩ :=
    hoffers.moveTo_spec h htarget
  intro o
  rw [h.invariant.labelled_eq]
  exact ⟨hresult, hnotes, hinvariant.labelled_eq.trans hlabels, hnext, hreparse⟩

/-- Twins go on together through a command if what it answers and notes, and the handles that it
leaves, are the same. -/
theorem Twins.of_perform (h : Twins s s') {c : Command}
    (hresult : (s.perform c).result = (s'.perform c).result)
    (hnotes : (s.perform c).notes = (s'.perform c).notes)
    (hhandles : (s.perform c).session.handles = (s'.perform c).session.handles)
    (hnext : (s.perform c).session.nextHandle = (s'.perform c).session.nextHandle)
    (hreparse : (s.perform c).session.reparse = (s'.perform c).session.reparse) :
    TwinOutcomes (s.perform c) (s'.perform c) := by
  obtain ⟨v, ⟨t, ht⟩, t', ht'⟩ := h.exists_view
  obtain ⟨-, hview⟩ := ht.perform c
  obtain ⟨-, hview'⟩ := ht'.perform c
  exact ⟨hresult, hnotes, ⟨_, hview, h.reparse_eq ▸ hview'⟩, hhandles, hnext, hreparse⟩

/-- The same for a command that moves the focus at most and makes new nodes. -/
theorem Twins.of_look (h : Twins s s') {c : Command}
    (hresult : (s.perform c).result = (s'.perform c).result)
    (hnotes : (s.perform c).notes = (s'.perform c).notes)
    (hlook : s.Looked (s.perform c).session) (hlook' : s'.Looked (s'.perform c).session) :
    TwinOutcomes (s.perform c) (s'.perform c) := by
  obtain ⟨v, ⟨t, ht⟩, t', ht'⟩ := h.exists_view
  obtain ⟨store, focus, hwithin, hlooked⟩ := hlook
  obtain ⟨store', focus', hwithin', hlooked'⟩ := hlook'
  apply h.of_perform hresult hnotes
  · rw [hlooked, hlooked', ht.handles_within hwithin, ht'.handles_within hwithin']
    exact h.handles_eq
  · rw [hlooked, hlooked']
    exact h.nextHandle_eq
  · rw [hlooked, hlooked']
    exact h.reparse_eq

/-- The same for a command that leaves both sessions as they are. -/
private theorem Twins.of_still (h : Twins s s') {c : Command} {result : Except SessionError Answer}
    {notes : List Note} (hstill : s.perform c = { result, session := s, notes })
    (hstill' : s'.perform c = { result, session := s', notes }) :
    TwinOutcomes (s.perform c) (s'.perform c) := by
  rw [hstill, hstill']
  exact ⟨rfl, rfl, h⟩

/-- Twins answer the same where the answers have no handles in them. -/
theorem Twins.result_eq (h : Twins s s') {c : Command}
    (hbare : ∀ s : Session, (s.perform c).result.map Answer.bare = (s.perform c).result) :
    (s.perform c).result = (s'.perform c).result := by
  obtain ⟨v, ⟨t, ht⟩, t', ht'⟩ := h.exists_view
  rw [← hbare s, ← hbare s', (ht.perform c).1, (ht'.perform c).1, h.reparse_eq]

/-- An answer without handles is the same without them. -/
private theorem map_bare_map {α : Type} (o : Outcome α) {f : α → Answer}
    (hf : ∀ a, (f a).bare = f a) : (o.map f).result.map Answer.bare = (o.map f).result := by
  obtain ⟨result, session, notes⟩ := o
  cases result with
  | error e => rfl
  | ok a => exact congrArg Except.ok (hf a)

/-- Selecting a child is no more than a look. -/
theorem looked_select (s : Session) (index : Int) :
    s.Looked (s.select index).session ∧ (s.select index).notes = [] := by
  rw [select]
  split
  · exact ⟨s.looked_focus _, rfl⟩
  · exact ⟨s.looked_refl, rfl⟩

/-- Selecting by a path is no more than a look. -/
theorem looked_selectPath (s : Session) (path : List Int) :
    s.Looked (s.selectPath path).session ∧ (s.selectPath path).notes = [] := by
  rw [selectPath]
  split
  · exact ⟨s.looked_focus _, rfl⟩
  · exact ⟨s.looked_refl, rfl⟩

/-- Twins select a child alike. -/
theorem Twins.perform_select (h : Twins s s') (index : Int) :
    TwinOutcomes (s.perform (.select index)) (s'.perform (.select index)) := by
  obtain ⟨hlook, hnotes⟩ := s.looked_select index
  obtain ⟨hlook', hnotes'⟩ := s'.looked_select index
  have hresult := h.result_eq (c := .select index) fun s =>
    map_bare_map (s.select index) fun _ => rfl
  exact h.of_look hresult (hnotes.trans hnotes'.symm) hlook hlook'

/-- Twins select by a path alike. -/
theorem Twins.perform_selectPath (h : Twins s s') (path : List Int) :
    TwinOutcomes (s.perform (.selectPath path)) (s'.perform (.selectPath path)) := by
  obtain ⟨hlook, hnotes⟩ := s.looked_selectPath path
  obtain ⟨hlook', hnotes'⟩ := s'.looked_selectPath path
  have hresult := h.result_eq (c := .selectPath path) fun s =>
    map_bare_map (s.selectPath path) fun _ => rfl
  exact h.of_look hresult (hnotes.trans hnotes'.symm) hlook hlook'

/-- Twins have the same candidates. -/
theorem Twins.perform_candidates (h : Twins s s') :
    TwinOutcomes (s.perform .candidates) (s'.perform .candidates) := by
  obtain ⟨hcs, hcs'⟩ | ⟨v, t, t', around, index, p, p', f, f', cs, cs', ht, ht', hoffers, hoffers',
    -, hshown, hnotes⟩ := h.root_or_offers
  · apply h.of_still
    · simp only [perform, candidates, hcs]
      rfl
    · simp only [perform, candidates, hcs']
      rfl
  · apply h.of_look
    · simp only [perform, candidates, hoffers.result_eq, hoffers'.result_eq]
      exact congrArg (fun ps => Except.ok (Answer.candidates ps)) hshown
    · exact hnotes
    · exact ⟨_, s.focus, hoffers.within, rfl⟩
    · exact ⟨_, s'.focus, hoffers'.within, rfl⟩

/-- Twins have the same preview. -/
theorem Twins.perform_preview (h : Twins s s') (position : Int) :
    TwinOutcomes (s.perform (.preview position)) (s'.perform (.preview position)) := by
  obtain ⟨hcs, hcs'⟩ | ⟨v, t, t', around, index, p, p', f, f', cs, cs', ht, ht', hoffers, hoffers',
    -, hshown, hnotes⟩ := h.root_or_offers
  · apply h.of_still
    · simp only [perform, preview_of_root hcs]
      rfl
    · simp only [perform, preview_of_root hcs']
      rfl
  · have hlength : cs.length = cs'.length := by simpa using congrArg List.length hshown
    have hchosen := congrArg (elementAt? · position) hshown
    simp only [elementAt?_map] at hchosen
    have hpreview := hoffers.preview_eq position
    have hpreview' := hoffers'.preview_eq position
    cases hc : elementAt? cs position with
    | none =>
      obtain hc' : elementAt? cs' position = none := by simpa [hc] using hchosen.symm
      rw [hc] at hpreview
      rw [hc', ← hlength, ← hnotes] at hpreview'
      apply h.of_still
      · simp only [perform, hpreview]
        rfl
      · simp only [perform, hpreview']
        rfl
    | some c =>
      rw [hc, Option.map_some, eq_comm, Option.map_eq_some_iff] at hchosen
      obtain ⟨c', hc', hsame⟩ := hchosen
      rw [hc] at hpreview
      rw [hc'] at hpreview'
      apply h.of_look
      · simp only [perform, hpreview, hpreview']
        exact congrArg (fun p => Except.ok (Answer.candidate p)) hsame.symm
      · simp only [perform, hpreview, hpreview']
        exact hnotes
      · simp only [perform, hpreview]
        exact ⟨_, s.focus, hoffers.within, rfl⟩
      · simp only [perform, hpreview']
        exact ⟨_, s'.focus, hoffers'.within, rfl⟩

/-- Twins that offer the same candidates go on together through a move to one of them. -/
private theorem Twins.perform_moveTo_of_offers (h : Twins s s') (ht : Shows s t v)
    (ht' : Shows s' t' v) {around : List Nat} {index target : Nat} {p p' f f' : Tree NodeId}
    {cs cs' : List Candidate} (hoffers : Offers s t v around index p f cs)
    (hoffers' : Offers s' t' v around index p' f' cs')
    (hlabels : p.map s.store.handle = p'.map s'.store.handle)
    (hnotes : (s.store.candidates s.focus).notes = (s'.store.candidates s'.focus).notes)
    (hresult : (s.perform (.moveTo target)).result = (s'.perform (.moveTo target)).result)
    (htarget : target < p.children.length) :
    TwinOutcomes (s.perform (.moveTo target)) (s'.perform (.moveTo target)) := by
  have hcount : p.children.length = p'.children.length := by
    simpa [Tree.children_map] using congrArg (fun u => u.children.length) hlabels
  obtain ⟨-, hleft, hlabelled, hnext, hreparse⟩ := hoffers.moveTo_labelled ht htarget
  obtain ⟨-, hleft', hlabelled', hnext', hreparse'⟩ :=
    hoffers'.moveTo_labelled ht' (hcount ▸ htarget)
  have hsame : (s.moveTo target).session.labelled = (s'.moveTo target).session.labelled := by
    rw [hlabelled, hlabelled', hlabels, h.labelled_eq]
  have hhandles := congrArg Tree.tags hsame
  rw [tags_labelled, tags_labelled] at hhandles
  have htext := congrArg (fun u => u.erase.flat) hsame
  simp only [erase_labelled] at htext
  have hnoted : (s.moveTo target).notes = (s'.moveTo target).notes := by
    rw [hleft, hleft', hnotes, text, text, htext]
  exact h.of_perform hresult hnoted hhandles (hnext.trans (h.nextHandle_eq.trans hnext'.symm))
    (hreparse.trans (h.reparse_eq.trans hreparse'.symm))

/-- Twins move a node alike. -/
theorem Twins.perform_moveTo (h : Twins s s') (position : Int) :
    TwinOutcomes (s.perform (.moveTo position)) (s'.perform (.moveTo position)) := by
  have hresult := h.result_eq (c := .moveTo position) fun s =>
    map_bare_map (s.moveTo position) fun _ => rfl
  obtain ⟨hcs, hcs'⟩ | ⟨v, t, t', around, index, p, p', f, f', cs, cs', ht, ht', hoffers, hoffers',
    hlabels, hshown, hnotes⟩ := h.root_or_offers
  · apply h.of_still
    · simp only [perform, moveTo_of_root hcs]
      rfl
    · simp only [perform, moveTo_of_root hcs']
      rfl
  · have hchosen := congrArg (elementAt? · position) hshown
    simp only [elementAt?_map] at hchosen
    -- The candidates look the same, so both sessions have one at the position or neither has.
    cases hc : elementAt? cs position with
    | none =>
      obtain hc' : elementAt? cs' position = none := by simpa [hc] using hchosen.symm
      obtain ⟨hsession, hleft⟩ := hoffers.moveTo_of_none hc
      obtain ⟨hsession', hleft'⟩ := hoffers'.moveTo_of_none hc'
      exact h.of_look hresult (hleft.trans (hnotes.trans hleft'.symm))
        ⟨s.store, s.focus, .refl s.store, hsession⟩ ⟨s'.store, s'.focus, .refl s'.store, hsession'⟩
    | some c =>
      obtain ⟨target, rfl, hc⟩ := elementAt?_eq_some_iff.mp hc
      have htarget : target < p.children.length :=
        hoffers.length_eq ▸ (List.getElem?_eq_some_iff.mp hc).1
      exact h.perform_moveTo_of_offers ht ht' hoffers hoffers' hlabels hnotes hresult htarget

/-- Loading the top of a tree gives its nodes the next handles in order. -/
theorem handles_load (s : Session) (howns : s.store.Owns t) :
    (s.load t.tag).handles =
        (List.range t.size).map (fun i : Nat => some (.integer (s.nextHandle + i))) ∧
      (s.load t.tag).nextHandle = s.nextHandle + t.size := by
  have hwalk : (s.load t.tag).store.walk t.tag = t.tags :=
    (howns.number t.tag s.nextHandle).walk_eq
  have hroot : (s.load t.tag).root = t.tag := rfl
  constructor
  · rw [handles, hroot, hwalk, load, Store.number, howns.walk_eq,
      Store.map_handle_numberAll _ howns.nodup fun id hid => howns.holds.lt_size hid,
      Tree.length_tags]
  · rw [load, howns.walk_eq, Tree.length_tags]

/-- A planted tree has the same number of nodes in every store, so the handles that it is given by
loading it depend on the next handle only. -/
theorem handles_load_plant (s : Session) (planted : Tree (Option Handle)) :
    let loaded := load { s with store := s.store.plant planted } s.store.size
    loaded.handles =
        (List.range planted.size).map (fun i : Nat => some (.integer (s.nextHandle + i))) ∧
      loaded.nextHandle = s.nextHandle + planted.size := by
  have hload := handles_load { s with store := s.store.plant planted }
    (Store.owns_plant s.store planted)
  have hsize : (planted.numbered s.store.size).size = planted.size := by
    rw [← Tree.length_tags, Tree.tags_numbered, List.length_range']
  rwa [Tree.tag_numbered, hsize] at hload

/-- A commit that reads its text again notes the reading, and gives the nodes of the expression read
the next handles in order. -/
private theorem perform_commit_of_parse {e : Expr} (hread : s.reparse = true)
    (hparse : parse s.text = .ok e) :
    (s.perform .commit).notes = parseNotes s.text ∧
      (s.perform .commit).session.handles =
        (List.range e.size).map (fun i : Nat => some (.integer (s.nextHandle + i))) ∧
      (s.perform .commit).session.nextHandle = s.nextHandle + e.size ∧
      (s.perform .commit).session.reparse = s.reparse := by
  have hcommit : s.perform .commit = ⟨.ok (.committed s.text),
      { load { s with store := s.store.plant (e.map fun _ => none) } s.store.size with
        history := s.history ++ [s.text] }, parseNotes s.text⟩ := by
    rw [perform, Outcome.map, Session.commit, if_pos hread, hparse]
    rfl
  obtain ⟨hhandles, hnext⟩ := s.handles_load_plant (e.map fun _ => none)
  rw [Tree.size_map] at hhandles hnext
  rw [handles] at hhandles
  rw [hcommit, handles]
  exact ⟨rfl, hhandles, hnext, rfl⟩

/-- A commit that cannot read its text leaves the session as it is. -/
private theorem perform_commit_of_error {e : ParseError} (hread : s.reparse = true)
    (hparse : parse s.text = .error e) :
    (s.perform .commit).notes = parseNotes s.text ∧ (s.perform .commit).session = s := by
  rw [perform, Outcome.map, Session.commit, if_pos hread, hparse]
  exact ⟨rfl, rfl⟩

/-- A commit that reads nothing keeps all handles. -/
private theorem perform_commit_of_not (hread : ¬ s.reparse = true) :
    (s.perform .commit).notes = [] ∧ (s.perform .commit).session.handles = s.handles ∧
      (s.perform .commit).session.nextHandle = s.nextHandle ∧
      (s.perform .commit).session.reparse = s.reparse := by
  rw [perform, Outcome.map, Session.commit, if_neg hread]
  exact ⟨rfl, rfl, rfl, rfl⟩

/-- Twins commit alike. -/
theorem Twins.perform_commit (h : Twins s s') :
    TwinOutcomes (s.perform .commit) (s'.perform .commit) := by
  have hresult := h.result_eq (c := .commit) fun s => map_bare_map s.commit fun _ => rfl
  have hreparse := h.reparse_eq
  by_cases hread : s'.reparse = true
  · have hread₁ := hreparse.trans hread
    cases hparse : parse s'.text with
    | error e =>
      obtain ⟨hnotes, hsession⟩ := perform_commit_of_error hread₁ (h.text_eq ▸ hparse)
      obtain ⟨hnotes', hsession'⟩ := perform_commit_of_error hread hparse
      rw [h.text_eq] at hnotes
      exact h.of_look hresult (hnotes.trans hnotes'.symm)
        ⟨s.store, s.focus, .refl s.store, hsession⟩ ⟨s'.store, s'.focus, .refl s'.store, hsession'⟩
    | ok e =>
      obtain ⟨hnotes, hhandles, hnext, hkept⟩ :=
        perform_commit_of_parse hread₁ (h.text_eq ▸ hparse)
      obtain ⟨hnotes', hhandles', hnext', hkept'⟩ := perform_commit_of_parse hread hparse
      rw [h.text_eq] at hnotes
      rw [h.nextHandle_eq] at hhandles hnext
      exact h.of_perform hresult (hnotes.trans hnotes'.symm) (hhandles.trans hhandles'.symm)
        (hnext.trans hnext'.symm) (hkept.trans (hreparse.trans hkept'.symm))
  · obtain ⟨hnotes, hhandles, hnext, hkept⟩ := perform_commit_of_not (hreparse ▸ hread)
    obtain ⟨hnotes', hhandles', hnext', hkept'⟩ := perform_commit_of_not hread
    exact h.of_perform hresult (hnotes.trans hnotes'.symm)
      (hhandles.trans (h.handles_eq.trans hhandles'.symm))
      (hnext.trans (h.nextHandle_eq.trans hnext'.symm))
      (hkept.trans (hreparse.trans hkept'.symm))

/-- Twins carry out a command alike. -/
theorem Twins.perform (h : Twins s s') (c : Command) :
    TwinOutcomes (s.perform c) (s'.perform c) := by
  cases c with
  | select index => exact h.perform_select index
  | selectPath path => exact h.perform_selectPath path
  | reset => exact h.of_look rfl rfl (s.looked_focus s.root) (s'.looked_focus s'.root)
  | candidates => exact h.perform_candidates
  | preview position => exact h.perform_preview position
  | moveTo position => exact h.perform_moveTo position
  | commit => exact h.perform_commit

/-- Twins take a step alike. -/
theorem Twins.step (h : Twins s s') (c : Command) : TwinOutcomes (s.step c) (s'.step c) := by
  obtain ⟨hresult, hnotes, htwins⟩ := h.perform c
  exact ⟨hresult, hnotes, htwins.sweep⟩

/-- Twins go through a run together. -/
theorem Twins.transcript_eq (h : Twins s s') (steps : List (Command × Bool)) :
    s.transcript steps = s'.transcript steps := by
  induction steps generalizing s s' with
  | nil => rfl
  | cons first rest ih =>
    obtain ⟨c, reparse⟩ := first
    obtain ⟨hresult, hnotes, htwins⟩ := (h.setReparse reparse).step c
    rw [transcript, transcript, hresult, hnotes, htwins.snapshot_eq, ih htwins]

end Session

end Rearrange
