import Rearrange.Proofs.Session.Step

namespace Rearrange.Session

/-- The sessions that commands lead to from a session. Whether a commit reads its text again can be
set anew before every command. -/
inductive Reachable (start : Session) : Session → Prop where
  | start : Reachable start start
  | step {s : Session} (h : Reachable start s) (reparse : Bool) (c : Command) :
      Reachable start (step { s with reparse } c).session

/-- The session is one that starts: about an expression in a store, or about a text. -/
def Starts (s : Session) : Prop :=
  (∃ store source reparse, s = ofNode store source reparse) ∨
    ∃ text reparse, ofText text reparse = .ok s

/-- The nodes of a session are in order: their handles are different numbers below the next one to
be given out, each of them is the root or listed by one of them and no more than that, their parents
are the nodes that list them, the focus is among them, and nothing is left to flatten. -/
structure Sound (s : Session) : Prop where
  handles_nodup : s.handles.Nodup
  handles_lt : ∀ h ∈ s.handles, ∃ n : Int, h = some (.integer n) ∧ n < s.nextHandle
  walk_nodup : (s.store.walk s.root).Nodup
  listed_perm : (s.root :: (s.store.walk s.root).flatMap s.store.children).Perm
    (s.store.walk s.root)
  linked : ∀ id ∈ s.store.walk s.root, ∀ c ∈ s.store.children id, s.store.parent c = some id
  parent_root : s.store.parent s.root = none
  focus_mem : s.focus ∈ s.store.walk s.root
  isFlat : s.expr.isFlat = true

/-- A text can say the expression of the session. A commit succeeds, adds to the history a text that
is read as the expression, and leaves the expression as it is; no other command writes the
history. -/
structure Readable (s : Session) : Prop where
  isCanonical : s.expr.IsCanonical
  parse_text : parse s.text = .ok s.expr
  commit_ok : ∀ reparse, (step { s with reparse } .commit).result = .ok (.committed s.text)
  expr_commit : ∀ reparse, (step { s with reparse } .commit).session.expr = s.expr
  history_step : ∀ reparse c, (step { s with reparse } c).session.history =
    if c = .commit then s.history ++ [s.text] else s.history

variable {start s s' : Session} {t : Tree NodeId}

/-- What a command may make of a session about a tree: the tree is canonical afterwards if it was
before, and then its nodes have been put in another order at most. -/
def Evolves (t : Tree NodeId) (s' : Session) : Prop :=
  ∃ t', s'.Invariant t' ∧ (t.IsCanonical → t.erase.Rearranged t'.erase)

/-- The tree of a session is one that may have evolved from it. -/
theorem Invariant.evolves (h : s'.Invariant t) : Evolves t s' :=
  ⟨t, h, fun _ => .refl _⟩

/-- A command keeps the invariant, whatever comes of it. -/
theorem Invariant.step (h : s.Invariant t) (c : Command) : Evolves t (s.step c).session := by
  obtain ⟨v, hv⟩ := h.exists_shows
  obtain ⟨-, t', ht'⟩ := hv.step c
  refine ⟨t', ht'.invariant, fun hcanonical => ?_⟩
  rw [ht'.erase_eq, hv.erase_eq]
  exact View.rearranged_step (hv.erase_eq ▸ Tree.isCanonical_erase_iff.mpr hcanonical) s.reparse c

/-- What commands make of a session is what one command may make of it. -/
theorem Reachable.evolves (h : Reachable start s) (hstart : start.Invariant t) : Evolves t s := by
  induction h with
  | start => exact hstart.evolves
  | @step s h reparse c ih =>
    obtain ⟨u, hu, htu⟩ := ih
    obtain ⟨v, hv, huv⟩ := (hu.refocus hu.focus_mem s.history reparse).step c
    refine ⟨v, hv, fun hcanonical => ?_⟩
    have hrearranged := htu hcanonical
    have hu' := hrearranged.isCanonical (Tree.isCanonical_erase_iff.mpr hcanonical)
    exact hrearranged.trans (huv (Tree.isCanonical_erase_iff.mp hu'))

/-- A session that commands lead to is about a tree of nodes. -/
theorem Reachable.exists_invariant (h : Reachable start s) (hstart : start.Starts) :
    ∃ t, s.Invariant t := by
  obtain ⟨store, source, reparse, rfl⟩ | ⟨text, reparse, hread⟩ := hstart
  · obtain ⟨t, ht⟩ := exists_invariant_ofNode store source reparse
    obtain ⟨u, hu, -⟩ := h.evolves ht
    exact ⟨u, hu⟩
  · obtain ⟨t, ht, -⟩ := exists_invariant_ofText hread
    obtain ⟨u, hu, -⟩ := h.evolves ht
    exact ⟨u, hu⟩

/-- A session about a tree is sound. -/
theorem Invariant.sound (h : s.Invariant t) : s.Sound := by
  have hhandles : s.handles = (t.map s.store.handle).tags := by
    rw [handles, h.walk_root, Tree.tags_map]
  constructor
  · exact hhandles ▸ h.handles_nodup
  · exact hhandles ▸ h.handles_lt
  · exact h.walk_root ▸ h.owns.nodup
  · rw [h.walk_root, ← h.tag_eq]
    exact h.owns.holds.listed_perm
  · exact h.walk_root ▸ h.owns.linked
  · exact h.parent_root
  · exact h.walk_root ▸ h.focus_mem
  · rw [h.expr_eq, Tree.erase, Tree.isFlat_map, h.isFlat]

/-- A session about a canonical tree is readable. -/
theorem Invariant.readable (h : s.Invariant t) (hcanonical : t.IsCanonical) : s.Readable := by
  have hexpr : s.expr.IsCanonical := h.expr_eq ▸ Tree.isCanonical_erase_iff.mpr hcanonical
  obtain ⟨v, hv⟩ := h.exists_shows
  have hview : v.expr.IsCanonical := hv.expr_eq ▸ hexpr
  have hstep : ∀ reparse c, Agrees (Session.step { s with reparse } c) (v.step reparse c) :=
    fun reparse c => (hv.setReparse reparse).step c
  have hcommit := fun reparse => View.step_commit hview reparse ▸ hstep reparse .commit
  constructor
  · exact hexpr
  · rw [text, parse_flat hexpr, Tree.erase_eq]
  · intro reparse
    obtain ⟨hresult, -⟩ := hcommit reparse
    rw [text, hv.expr_eq]
    exact Answer.map_bare_eq_committed_iff.mp hresult
  · intro reparse
    obtain ⟨-, t', ht'⟩ := hcommit reparse
    exact ht'.expr_eq.trans hv.expr_eq.symm
  · intro reparse c
    obtain ⟨-, t', ht'⟩ := hstep reparse c
    rw [ht'.history_eq]
    split
    · next hc =>
      rw [hc, View.step_commit hview, text, hv.expr_eq, hv.history_eq]
    · next hc => rw [View.history_step_of_ne v reparse hc, hv.history_eq]

/-- In every session that commands lead to the nodes are in order. If the session was started from a
text, its expression is canonical, so it can be committed and is read back from the history. -/
theorem sound_of_reachable (h : Reachable start s) :
    (∀ store source reparse, start = ofNode store source reparse → s.Sound) ∧
      ∀ text reparse, ofText text reparse = .ok start → s.Sound ∧ s.Readable := by
  constructor
  · rintro store source reparse rfl
    obtain ⟨t, ht⟩ := exists_invariant_ofNode store source reparse
    obtain ⟨u, hu, -⟩ := h.evolves ht
    exact hu.sound
  · intro text reparse hstart
    obtain ⟨t, ht, -, hcanonical⟩ := exists_invariant_ofText hstart
    obtain ⟨u, hu, hrearranged⟩ := h.evolves ht
    have herased := (hrearranged hcanonical).isCanonical (Tree.isCanonical_erase_iff.mpr hcanonical)
    exact ⟨hu.sound, hu.readable (Tree.isCanonical_erase_iff.mp herased)⟩

/-- A term of a sum is moved to the front and the sum is committed without reading it again; a chain
below a chain is flattened at the start, and then a place that is not there is asked for. -/
theorem sound_of_reachable_move_and_failure :
    let one : Expr := .literal () ⟨['1'], rfl⟩
    let x : Expr := .literal () ⟨['x'], rfl⟩
    let read := load { store := Store.empty.plant ((Tree.branch () (.chain .plus)
      [one, .branch () (.chain .times) [x, x]]).map fun _ => none), root := 0, focus := 0 } 0
    let selected := (step { read with reparse := true } (.selectPath [1])).session
    let moved := (step { selected with reparse := true } (.moveTo 0)).session
    let committed := (step { moved with reparse := false } .commit).session
    let store := Store.empty.plant ((Tree.branch () (.chain .plus)
      [.branch () (.chain .plus) [x, one], .branch () .group []]).map fun _ => none)
    let failed := (step { ofNode store 0 true with reparse := true } (.moveTo 7)).session
    (ofText "1+x*x".toList true = .ok read ∧ committed.history = ["x*x+1".toList] ∧
      committed.Sound ∧ committed.Readable) ∧ failed.text = "x+1+()".toList ∧ failed.Sound := by
  intro one x read selected moved committed store failed
  have hparse : parse "1+x*x".toList = .ok (.branch () (.chain .plus)
      [one, .branch () (.chain .times) [x, x]]) := by
    refine parse_eq_ok_iff.mpr ⟨?_, by decide⟩
    simp [Tree.isCanonical_chain_iff, Tree.kind, Operator.admits, Tree.IsCanonical.literal, one, x]
  have hread : ofText "1+x*x".toList true = .ok read := by
    rw [ofText, hparse]
    rfl
  have hcommitted : Reachable read committed :=
    .step (.step (.step .start true (.selectPath [1])) true (.moveTo 0)) false .commit
  have hfailed : Reachable (ofNode store 0 true) failed := .step .start true (.moveTo 7)
  refine ⟨⟨hread, by decide +kernel, ?_⟩, by decide +kernel, ?_⟩
  · exact (sound_of_reachable hcommitted).2 _ _ hread
  · exact (sound_of_reachable hfailed).1 _ _ _ rfl

end Rearrange.Session
