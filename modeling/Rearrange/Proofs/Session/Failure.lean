import Rearrange.Proofs.Session.Reachable

namespace Rearrange

/-- The operation fails. -/
def Outcome.Fails {α : Type} (o : Outcome α) : Prop :=
  ∃ e, o.result = .error e

theorem Outcome.not_fails {α : Type} {o : Outcome α} {a : α} (h : o.result = .ok a) :
    ¬ o.Fails := by
  rintro ⟨e, he⟩
  rw [h] at he
  cases he

theorem Outcome.fails_map_iff {α β : Type} {f : α → β} {o : Outcome α} :
    (o.map f).Fails ↔ o.Fails := by
  obtain ⟨result, session, notes⟩ := o
  cases result with
  | ok a => exact iff_of_false (not_fails rfl) (not_fails rfl)
  | error e => exact iff_of_true ⟨e, rfl⟩ ⟨e, rfl⟩

namespace Session

/-- A position at which the focused node can be put: it counts from zero below the number of the
children of the node above it. The root can be put nowhere. -/
def Admits (s : Session) (position : Int) : Prop :=
  s.focus ≠ s.root ∧
    ∃ p, s.store.parent s.focus = some p ∧ 0 ≤ position ∧ position < (s.store.children p).length

/-- What the command asks for is not there. -/
def Lacks (s : Session) : Command → Prop
  | .select index => ¬ (0 ≤ index ∧ index < (s.store.children s.focus).length)
  | .selectPath path =>
    ¬ ∃ place : List Nat, path = place.map Int.ofNat ∧ (s.expr.subtreeAt? place).isSome
  | .reset => False
  | .candidates => False
  | .preview position => ¬ s.Admits position
  | .moveTo position => ¬ s.Admits position
  | .commit => s.reparse = true ∧ ¬ ∃ e, parse s.text = .ok e

/-- The second session is the first one as far as its nodes are concerned: it has the same root and
focus, every node below the root is as it was, and so are the history and the next handle. -/
structure Unchanged (s s' : Session) : Prop where
  root_eq : s'.root = s.root
  focus_eq : s'.focus = s.focus
  walk_eq : s'.store.walk s'.root = s.store.walk s.root
  cell_eq : ∀ id ∈ s.store.walk s.root, s'.store.cell id = s.store.cell id
  history_eq : s'.history = s.history
  nextHandle_eq : s'.nextHandle = s.nextHandle
  reparse_eq : s'.reparse = s.reparse

variable {start s : Session} {t : Tree NodeId} {v : View}

/-- Selecting fails when the node has no child at the index. -/
theorem fails_select_iff {index : Int} :
    (s.select index).Fails ↔ ¬ (0 ≤ index ∧ index < (s.store.children s.focus).length) := by
  rw [← elementAt?_eq_none_iff, select]
  cases elementAt? (s.store.children s.focus) index with
  | none => exact iff_of_true ⟨_, rfl⟩ rfl
  | some child => exact iff_of_false (Outcome.not_fails rfl) (Option.some_ne_none child)

/-- Selecting by a path fails when the path is no place in the tree. -/
theorem Invariant.fails_selectPath_iff (h : s.Invariant t) {path : List Int} :
    (s.selectPath path).Fails ↔
      ¬ ∃ place : List Nat, path = place.map Int.ofNat ∧ (s.expr.subtreeAt? place).isSome := by
  have hplaces : (∃ place : List Nat, path = place.map Int.ofNat ∧
      (s.expr.subtreeAt? place).isSome) ↔ ∃ u, t.followFrom 0 path = .ok u := by
    simp only [h.expr_eq, Tree.erase, Tree.subtreeAt?_map, Option.isSome_map,
      Option.isSome_iff_exists, Tree.followFrom_eq_ok_iff]
    tauto
  rw [hplaces, selectPath, Store.nodeAt, ← h.tag_eq, h.owns.nodeFrom_eq]
  cases t.followFrom 0 path with
  | ok u => exact iff_of_false (Outcome.not_fails rfl) (not_not_intro ⟨u, rfl⟩)
  | error e =>
    refine iff_of_true ⟨_, rfl⟩ ?_
    rintro ⟨u, hu⟩
    cases hu

/-- The focused node can be put at the positions that its siblings and itself have. -/
theorem Shows.admits_iff (h : Shows s t v) {place : List Nat} {index : Nat} {p : Tree NodeId}
    (hplace : v.place = place ++ [index]) (hp : t.subtreeAt? place = some p) {position : Int} :
    s.Admits position ↔ 0 ≤ position ∧ position < p.children.length := by
  obtain ⟨u, hu, hfocus⟩ := h.focus_eq
  have howns := h.invariant.owns.subtreeAt? hp
  rw [hplace, Tree.subtreeAt?_concat hp] at hu
  have hparent : s.store.parent s.focus = some p.tag := hfocus ▸ howns.parent_eq hu
  have hroot : s.focus ≠ s.root := by
    intro hroot
    rw [hroot, h.invariant.parent_root] at hparent
    cases hparent
  simp [Admits, hroot, hparent, howns.holds.children_tag]

/-- A node may be put at every index among its siblings. -/
theorem Offers.admits {place : List Nat} {index target : Nat} {p f : Tree NodeId}
    {cs : List Candidate} (hoffers : Offers s t v place index p f cs) (h : Shows s t v)
    (htarget : target < p.children.length) : s.Admits target :=
  (h.admits_iff hoffers.place_eq hoffers.subtreeAt?_eq).mpr
    ⟨Int.natCast_nonneg target, Int.ofNat_lt.mpr htarget⟩

/-- A preview fails when the node cannot be put there. -/
theorem Shows.fails_preview_iff (h : Shows s t v) {position : Int} :
    (s.preview position).Fails ↔ ¬ s.Admits position := by
  obtain ⟨hplace, hcs⟩ | ⟨place, index, p, f, cs, hoffers⟩ := h.root_or_offers
  · have hroot : s.focus = s.root := by
      obtain ⟨u, hu, hfocus⟩ := h.focus_eq
      rw [hplace] at hu
      obtain rfl := Option.some.inj hu
      exact hfocus.symm.trans h.invariant.tag_eq
    rw [preview_of_root hcs]
    exact iff_of_true ⟨_, rfl⟩ fun hadmits => hadmits.1 hroot
  · rw [h.admits_iff hoffers.place_eq hoffers.subtreeAt?_eq, ← hoffers.length_eq,
      ← elementAt?_eq_none_iff, hoffers.preview_eq]
    cases elementAt? cs position with
    | none => exact iff_of_true ⟨_, rfl⟩ rfl
    | some c => exact iff_of_false (Outcome.not_fails rfl) (Option.some_ne_none c)

/-- A preview that fails leaves the session as it was. -/
theorem Shows.session_preview_of_fails (h : Shows s t v) {position : Int}
    (hfails : (s.preview position).Fails) : (s.preview position).session = s := by
  obtain ⟨-, -, hsession⟩ | ⟨place, index, p, f, cs, target, hoffers, rfl, htarget⟩ :=
    h.preview_fails_or_offers position
  · exact hsession
  · exact absurd (hoffers.admits h htarget) (h.fails_preview_iff.mp hfails)

/-- A move fails where the preview does, and then it has changed nothing: what is previewed can be
spliced, and the moved node is found again. -/
theorem Shows.fails_moveTo (h : Shows s t v) {position : Int} :
    ((s.moveTo position).Fails ↔ (s.preview position).Fails) ∧
      ((s.moveTo position).Fails → (s.moveTo position).session = s) := by
  obtain ⟨e, hresult, hsession⟩ | ⟨place, index, p, f, cs, target, hoffers, rfl, htarget⟩ :=
    h.preview_fails_or_offers position
  · rw [moveTo_of_preview_eq_error hresult]
    exact ⟨iff_of_true ⟨e, rfl⟩ ⟨e, hresult⟩, fun _ => hsession⟩
  · obtain ⟨⟨hresult, -⟩, -⟩ := hoffers.moveTo_spec h htarget
    have hmoved : ¬ (s.moveTo target).Fails := Outcome.not_fails hresult
    have hpreviewed : ¬ (s.preview target).Fails := fun hfails =>
      h.fails_preview_iff.mp hfails (hoffers.admits h htarget)
    exact ⟨iff_of_false hmoved hpreviewed, fun hfails => absurd hfails hmoved⟩

/-- Listing candidates does not fail. -/
theorem Shows.not_fails_candidates (h : Shows s t v) : ¬ s.candidates.Fails := by
  obtain ⟨-, hcs⟩ | ⟨place, index, p, f, cs, hoffers⟩ := h.root_or_offers
  · refine Outcome.not_fails (a := []) ?_
    rw [Session.candidates, hcs]
    rfl
  · refine Outcome.not_fails (a := cs) ?_
    rw [Session.candidates, hoffers.result_eq]
    rfl

/-- A commit fails when it reads a text that cannot be read. -/
theorem fails_commit_iff : s.commit.Fails ↔ s.reparse = true ∧ ¬ ∃ e, parse s.text = .ok e := by
  rw [commit]
  by_cases hreparse : s.reparse = true
  · rw [if_pos hreparse]
    cases hparse : parse s.text with
    | ok e => exact iff_of_false (Outcome.not_fails rfl) fun h => h.2 ⟨e, rfl⟩
    | error e =>
      refine iff_of_true ⟨_, rfl⟩ ⟨hreparse, ?_⟩
      rintro ⟨e', he'⟩
      cases he'
  · rw [if_neg hreparse]
    exact iff_of_false (Outcome.not_fails rfl) fun h => hreparse h.1

/-- A command fails when what it asks for is not there. -/
theorem Shows.fails_perform_iff (h : Shows s t v) {c : Command} :
    (s.perform c).Fails ↔ s.Lacks c := by
  cases c with
  | select index => exact Outcome.fails_map_iff.trans fails_select_iff
  | selectPath path => exact Outcome.fails_map_iff.trans h.invariant.fails_selectPath_iff
  | reset => exact iff_of_false (Outcome.not_fails rfl) id
  | candidates => exact Outcome.fails_map_iff.trans (iff_of_false h.not_fails_candidates id)
  | preview position => exact Outcome.fails_map_iff.trans h.fails_preview_iff
  | moveTo position =>
    exact Outcome.fails_map_iff.trans (h.fails_moveTo.1.trans h.fails_preview_iff)
  | commit => exact Outcome.fails_map_iff.trans fails_commit_iff

/-- A command that fails leaves the session as it was. -/
theorem Shows.session_of_fails (h : Shows s t v) {c : Command} (hfails : (s.perform c).Fails) :
    (s.perform c).session = s := by
  cases c with
  | select index =>
    rw [Session.perform, Outcome.fails_map_iff, Session.select] at hfails
    rw [Session.perform, Outcome.map, Session.select]
    split
    · next child hchild =>
      rw [hchild] at hfails
      exact absurd hfails (Outcome.not_fails rfl)
    · rfl
  | selectPath path =>
    rw [Session.perform, Outcome.fails_map_iff, Session.selectPath] at hfails
    rw [Session.perform, Outcome.map, Session.selectPath]
    split
    · next id hid =>
      rw [hid] at hfails
      exact absurd hfails (Outcome.not_fails rfl)
    · rfl
  | reset => exact absurd hfails (Outcome.not_fails rfl)
  | candidates => exact absurd (Outcome.fails_map_iff.mp hfails) h.not_fails_candidates
  | preview position => exact h.session_preview_of_fails (Outcome.fails_map_iff.mp hfails)
  | moveTo position => exact h.fails_moveTo.2 (Outcome.fails_map_iff.mp hfails)
  | commit =>
    obtain ⟨hreparse, hparse⟩ := fails_commit_iff.mp (Outcome.fails_map_iff.mp hfails)
    rw [Session.perform, Outcome.map, Session.commit, if_pos hreparse]
    split
    · rfl
    · next e he => exact absurd ⟨e, he⟩ hparse

/-- Dropping what is no longer used leaves everything below the root as it was. -/
theorem Invariant.unchanged_sweep (h : s.Invariant t) : s.Unchanged s.sweep := by
  have htop : t.tag ∈ [s.root, s.focus] := h.tag_eq ▸ List.mem_cons_self
  have hparent : s.store.parent t.tag = none := h.tag_eq ▸ h.parent_root
  constructor
  · rfl
  · rfl
  · exact h.sweep.walk_root.trans h.walk_root.symm
  · intro id hid
    rw [h.walk_root] at hid
    exact h.owns.cell_sweep_eq htop hparent hid
  · rfl
  · rfl
  · rfl

/-- In a session that commands lead to, a command fails if and only if what it asks for is not
there. A command that fails leaves the session as it was, up to nodes that are no longer used. -/
theorem fails_iff_lacks (h : Reachable start s) (hstart : start.Starts) (reparse : Bool)
    (c : Command) :
    let before : Session := { s with reparse }
    ((before.step c).Fails ↔ before.Lacks c) ∧ ((before.step c).Fails →
      (before.perform c).session = before ∧ before.Unchanged (before.step c).session) := by
  intro before
  obtain ⟨t, ht⟩ := h.exists_invariant hstart
  have hbefore : before.Invariant t := ht.refocus ht.focus_mem s.history reparse
  obtain ⟨v, hv⟩ := hbefore.exists_shows
  refine ⟨hv.fails_perform_iff, fun hfails => ?_⟩
  have hsame : (before.perform c).session = before := hv.session_of_fails hfails
  refine ⟨hsame, ?_⟩
  rw [step, hsame]
  exact hbefore.unchanged_sweep

/-- A position beyond the last one is asked for in a sum of two terms, and a sum without terms is
committed, whose text is empty. -/
theorem fails_iff_lacks_position_and_text :
    let a : Expr := .literal () ⟨['a'], rfl⟩
    let start := ofExpr (.branch () (.chain .plus) [a, a]) true
    let selected : Session :=
      { (step { start with reparse := true } (.selectPath [1])).session with reparse := true }
    let empty : Session := { ofExpr (.branch () (.chain .plus) []) false with reparse := true }
    (selected.Lacks (.moveTo 2) ∧ (selected.perform (.moveTo 2)).session = selected ∧
        selected.Unchanged (selected.step (.moveTo 2)).session) ∧
      empty.Lacks .commit ∧ (empty.perform .commit).session = empty ∧
        empty.Unchanged (empty.step .commit).session := by
  intro a start selected empty
  have hselected : Reachable start
      (step { start with reparse := true } (.selectPath [1])).session :=
    .step .start true (.selectPath [1])
  have hmove := fails_iff_lacks hselected (.inl ⟨_, _, _, rfl⟩) true (.moveTo 2)
  have hposition : selected.Lacks (.moveTo 2) := by
    have hparent : selected.store.parent selected.focus = some 3 := by decide +kernel
    have hcount : (selected.store.children 3).length = 2 := by decide +kernel
    rintro ⟨-, p, hp, -, hlt⟩
    obtain rfl := Option.some.inj (hparent.symm.trans hp)
    rw [hcount] at hlt
    exact absurd hlt (by decide)
  have hstart : Starts (ofExpr (.branch () (.chain .plus) []) false) := .inl ⟨_, _, _, rfl⟩
  have hcommit := fails_iff_lacks .start hstart true .commit
  have htext : empty.Lacks .commit := ⟨rfl, nofun⟩
  exact ⟨⟨hposition, hmove.2 (hmove.1.mpr hposition)⟩, htext, hcommit.2 (hcommit.1.mpr htext)⟩

end Session

end Rearrange
