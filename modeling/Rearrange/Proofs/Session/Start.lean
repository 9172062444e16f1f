import Rearrange.Proofs.Session.Twins

namespace Rearrange.Session

/-- The session has just been started about an expression in a store: it is about the expression
flattened, on nodes of its own, which have the numbers from one on as their handles, each node
before those below it. The focus is on all of it, and there is no history. Whatever was in the store
is as it was, with its children, its handle and its parent. -/
structure StartsFrom (store : Store) (source : NodeId) (s : Session) : Prop where
  expr_eq : s.expr = (store.expr source).flatten
  fresh : ∀ n ∈ s.store.walk s.root, store.size ≤ n
  handles_eq : s.handles = (List.range s.expr.size).map fun i : Nat => some (.integer (1 + i))
  focus_eq : s.focus = s.root
  history_eq : s.history = []
  nextHandle_eq : s.nextHandle = 1 + s.expr.size
  cell_eq : ∀ n, n < store.size → s.store.cell n = store.cell n

/-- Nobody can tell the sessions apart without looking at the identities of nodes: every path leads
to nodes with the same handle or fails in the same way, what is seen of the sessions is the same,
and so is everything that is seen of a run. -/
structure SameRuns (s s' : Session) : Prop where
  handle_nodeAt_eq : ∀ path, (s.store.nodeAt s.root path).map s.store.handle =
    (s'.store.nodeAt s'.root path).map s'.store.handle
  snapshot_eq : s.snapshot = s'.snapshot
  transcript_eq : ∀ steps, s.transcript steps = s'.transcript steps

variable {s s' : Session} {t : Tree NodeId} {text : List Char} {e : Expr}

/-- A path leads to the handle that the labels have there. -/
theorem Invariant.handle_nodeAt (h : s.Invariant t) (path : List Int) :
    (s.store.nodeAt s.root path).map s.store.handle =
      (s.labelled.followFrom 0 path).map Tree.tag := by
  rw [Store.nodeAt, ← h.tag_eq, h.owns.nodeFrom_eq, h.labelled_eq, Tree.followFrom_map]
  cases t.followFrom 0 path with
  | error e => rfl
  | ok u => exact congrArg Except.ok (Tree.tag_map s.store.handle u).symm

/-- Twins answer the same to all commands. -/
theorem Twins.sameRuns (h : Twins s s') : s.SameRuns s' := by
  refine ⟨fun path => ?_, h.snapshot_eq, h.transcript_eq⟩
  obtain ⟨v, ⟨t, ht⟩, t', ht'⟩ := h.exists_view
  rw [ht.invariant.handle_nodeAt, ht'.invariant.handle_nodeAt, h.labelled_eq]

/-- A session starts from the node it is given. -/
theorem startsFrom_ofNode (store : Store) (source : NodeId) (reparse : Bool) :
    StartsFrom store source (ofNode store source reparse) := by
  let copied : Tree (Option Handle) := (store.labelled source).map fun _ => none
  let t := copied.numbered store.size
  have hinvariant : (ofNode store source reparse).Invariant t.flatten :=
    invariant_ofNode store source reparse
  have hflattens := Store.flattens_flatten (Store.owns_plant store copied)
  rw [Tree.tag_numbered] at hflattens
  let flattened : Session := { store := (store.plant copied).flatten store.size, root := store.size,
                               focus := store.size, reparse }
  have hloaded : ofNode store source reparse = flattened.load store.size := ofNode_eq ..
  have hload := handles_load flattened hflattens.owns
  rw [Tree.tag_flatten, Tree.tag_numbered, ← hloaded] at hload
  obtain ⟨hhandles, hnext⟩ := hload
  have hsize : t.flatten.size = (ofNode store source reparse).expr.size := by
    rw [hinvariant.expr_eq, Tree.erase, Tree.size_map]
  have hnew : ∀ n ∈ t.tags, store.size ≤ n := fun n hn => Tree.le_of_mem_tags_numbered hn
  constructor
  · rw [hinvariant.expr_eq, Tree.erase, Tree.map_flatten, ← Tree.erase, Store.erase_numbered_size,
      Tree.erase_map, Store.labelled, Tree.erase_map, Store.expr]
  · intro n hn
    rw [hinvariant.walk_root] at hn
    exact hnew n (t.tags_flatten_sublist.subset hn)
  · rw [← hsize]
    exact hhandles
  · rfl
  · rfl
  · rw [← hsize]
    exact hnext
  · intro n hn
    have hout : n ∉ t.tags := fun hmem => Nat.not_lt_of_le (hnew n hmem) hn
    have hwalk := hflattens.owns.walk_eq
    rw [Tree.tag_flatten, Tree.tag_numbered] at hwalk
    -- Numbering writes only what the walk from the new root meets, which is what was made.
    have hunnumbered : n ∉ ((store.plant copied).flatten store.size).walk store.size := by
      rw [hwalk]
      exact fun hmem => hout (t.tags_flatten_sublist.subset hmem)
    rw [hloaded, load, Store.number, Store.cell_numberAll_of_notMem _ hunnumbered,
      hflattens.cell_eq n hout, Store.cell_plant_of_lt hn]

/-- A session from a text starts from its expression in an empty store. -/
private theorem ofText_eq (hparse : parse text = .ok e) (reparse : Bool) :
    ofText text reparse = .ok
      (load { store := Store.empty.plant (e.map fun _ => none), root := 0, focus := 0, reparse }
        0) := by
  rw [ofText, hparse]
  rfl

/-- A session about the expression that a text is read as is the twin of the session about the
text. -/
theorem exists_ofText_twins (hparse : parse text = .ok e) (reparse : Bool) :
    ∃ s, ofText text reparse = .ok s ∧
      ∀ store source, store.expr source = e → Twins (ofNode store source reparse) s := by
  obtain ⟨s, t, hs, hshows⟩ := exists_ofText hparse reparse
  refine ⟨s, hs, fun store source hexpr => ?_⟩
  obtain rfl := Except.ok.inj ((ofText_eq hparse reparse).symm.trans hs)
  have hflat := (parse_eq_ok_iff.mp hparse).1.isFlat
  have hstarts := startsFrom_ofNode store source reparse
  obtain ⟨t', ht'⟩ := exists_invariant_ofNode store source reparse
  have hsame : (ofNode store source reparse).expr = e := by
    rw [hstarts.expr_eq, hexpr, Tree.flatten_eq_self hflat]
  have hshows' : Shows (ofNode store source reparse) t' { expr := e } :=
    ⟨ht', ht'.expr_eq.symm.trans hsame, ⟨t', t'.subtreeAt?_nil, ht'.tag_eq⟩, rfl⟩
  obtain ⟨hhandles, hnext⟩ := handles_load_plant
    { store := Store.empty, root := 0, focus := 0, reparse : Session } (e.map fun _ => none)
  rw [Tree.size_map] at hhandles hnext
  refine ⟨⟨_, ⟨t', hshows'⟩, t, hshows⟩, ?_, ?_, reparse_ofNode store source reparse⟩
  · rw [hstarts.handles_eq, hsame]
    exact hhandles.symm
  · rw [hstarts.nextHandle_eq, hsame]
    exact hnext.symm

/-- A session about an expression in a store starts on a flattened copy with handles of its own and
leaves everything in the store as it is. If the expression is the one that a text is read as,
wherever its nodes may stand, nobody can tell the session from the one about the text. -/
theorem starts_from_store_or_text :
    (∀ store source reparse, StartsFrom store source (ofNode store source reparse)) ∧
    ∀ text e reparse, parse text = .ok e → ∃ s, ofText text reparse = .ok s ∧
      (∀ store source, store.expr source = e → SameRuns (ofNode store source reparse) s) ∧
      SameRuns (ofExpr e reparse) s := by
  refine ⟨startsFrom_ofNode, fun text e reparse hparse => ?_⟩
  obtain ⟨s, hs, htwins⟩ := exists_ofText_twins hparse reparse
  refine ⟨s, hs, fun store source hexpr => (htwins store source hexpr).sameRuns, ?_⟩
  exact (htwins _ _ (Store.empty.expr_plant e)).sameRuns

/-- A sum has one literal twice and stands in a sum, and once more in a group beside it. The session
about the outer sum works on a flattened copy; the one about the inner sum is that about its text.
-/
theorem starts_from_store_or_text_shared_sum :
    let one : Literal := ⟨['1'], rfl⟩
    let x : Literal := ⟨['x'], rfl⟩
    let store : Store := ⟨#[{ content := .literal one }, { content := .literal x },
      { content := .branch (.chain .plus) [0, 0, 1], handle := some (.text "inner") },
      { content := .branch .group [2] }, { content := .branch (.chain .plus) [2, 3] }]⟩
    let e : Expr := .branch () (.chain .plus) [.literal () one, .literal () one, .literal () x]
    (StartsFrom store 4 (ofNode store 4 true) ∧
      (ofNode store 4 true).text = "1+1+x+(1+1+x)".toList) ∧
    (parse "1+1+x".toList = .ok e ∧ store.expr 2 = e) ∧
    ∃ s, ofText "1+1+x".toList true = .ok s ∧ SameRuns (ofNode store 2 true) s ∧
      SameRuns (ofExpr e true) s := by
  intro one x store e
  have hparse : parse "1+1+x".toList = .ok e := by decide +kernel
  have hexpr : store.expr 2 = e := by decide +kernel
  obtain ⟨hstore, htext⟩ := starts_from_store_or_text
  obtain ⟨s, hs, hnodes, hread⟩ := htext "1+1+x".toList e true hparse
  exact ⟨⟨hstore store 4 true, by decide +kernel⟩, ⟨hparse, hexpr⟩, s, hs,
    hnodes store 2 hexpr, hread⟩

end Rearrange.Session
