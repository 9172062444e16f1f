import Rearrange.CommandLine.Scanner
import Rearrange.Proofs.CommandLine.Run
import Rearrange.Proofs.Display.Placements
import Rearrange.Proofs.Session.Step

namespace Rearrange

/-- The integer of a variable is its default unless the variable holds a numeral. -/
private theorem Settings.fst_readInt (env : Environment) (name : String) (default : Int) :
    (readInt env name default).1 = (Text.integer? (Text.strip (env name))).getD default := by
  rw [readInt]
  split
  · next hnil =>
    rw [hnil]
    rfl
  · cases Text.integer? (Text.strip (env name)) <;> rfl

/-- At least one placement is shown, and as many as the numeral in the environment says if there is
one. -/
theorem Settings.maxPreview_ofEnvironment (env : Environment) :
    (ofEnvironment env).1.maxPreview =
      max 1 ((Text.integer? (Text.strip (env "EXPREDIT_MAX_PREVIEW"))).getD 20).toNat := by
  rw [← fst_readInt]
  rfl

namespace Session

variable {s : Session} {t : Tree NodeId} {v : View} {place : List Nat}

/-- A path to a place focuses the node there and leaves everything else as it is. -/
theorem Shows.selectPath_eq (h : Shows s t v) {u : Tree NodeId}
    (hu : t.subtreeAt? place = some u) : s.selectPath (place.map Int.ofNat) =
      { result := .ok u.tag, session := { s with focus := u.tag } } := by
  have hnode : s.store.nodeAt s.root (place.map Int.ofNat) = .ok u.tag := by
    rw [Store.nodeAt, ← h.invariant.tag_eq, h.invariant.owns.nodeFrom_eq,
      Tree.followFrom_natCast 0 hu]
    rfl
  rw [Session.selectPath, hnode]

/-- The focused node has the index below its parent with which its place ends. -/
theorem Shows.indexInParent_eq (h : Shows s t v) {index : Nat}
    (hplace : v.place = place ++ [index]) : s.store.indexInParent s.focus = .ok index := by
  obtain ⟨u, hu, hfocus⟩ := h.focus_eq
  rw [hplace] at hu
  obtain ⟨p, hp, hc⟩ := Tree.exists_subtreeAt?_of_concat hu
  have howns := h.invariant.owns.subtreeAt? hp
  rw [← hfocus]
  exact Store.indexInParent_eq (howns.parent_eq hc) (howns.idxOf?_eq hc)

end Session

open Display (ShowsPlacements placedText)

/-- The placements of a part that is the child of another one, as far as a table shows them. -/
theorem View.texts_candidates {v : View} {above : List Nat} {index : Nat} {shape : Shape}
    {cs : List Expr} {c : Expr} (hplace : v.place = above ++ [index])
    (haround : v.expr.subtreeAt? above = some (.branch () shape cs)) (hc : cs[index]? = some c) :
    v.candidates.map (fun x => (x.flat, x.position)) =
      (List.range cs.length).map fun position =>
        (placedText shape cs index c position, position) := by
  obtain ⟨hlt, rfl⟩ := List.getElem?_eq_some_iff.mp hc
  rw [candidates_concat hplace haround, List.map_map]
  refine List.map_congr_left fun position _ => ?_
  simp only [Function.comp_apply, View.placement, Placement.flat, Tree.flat_map, Tree.withMoved,
    moveElement_eq hlt, placedText]

namespace CommandLine

variable {ε : Type} {front : FrontEnd ε} {env : Environment} {files : Files}
  {args rest : List (List Char)} {threshold : Threshold} {text : List Char} {e c : Expr}
  {above : List Nat} {index : Nat} {shape : Shape} {cs : List Expr}

/-- The placements of a child of a node are shown in one table, with a line below it if not all of
them are. -/
theorem report_showCandidates (h : e.IsCanonical)
    (haround : e.subtreeAt? above = some (.branch () shape cs)) (hc : cs[index]? = some c)
    (settings : Settings) (threshold : Threshold) :
    ∃ rows below,
      (showCandidates settings ((above ++ [index]).map Int.ofNat) e).report threshold =
        ({ blocks :=
            .table ("Placements of ".toList ++ c.flat) Display.candidateColumns rows :: below
           threshold } : Report ε) ∧
      ShowsPlacements shape cs index c settings.maxPreview rows below := by
  obtain ⟨t, hstart⟩ := Session.exists_shows_ofExpr h.isFlat settings.reparse
  have hplace : e.subtreeAt? (above ++ [index]) = some c := by
    rw [Tree.subtreeAt?_concat haround]
    exact hc
  rw [showCandidates]
  generalize Session.ofExpr e settings.reparse = start at hstart ⊢
  obtain ⟨u, hu, rfl⟩ := Option.map_eq_some_iff.mp ((hstart.subtreeAt? _).symm.trans hplace)
  have hselected := hstart.refocus hu
  obtain ⟨q, hq, -⟩ := Tree.exists_subtreeAt?_of_concat hu
  obtain ⟨f, xs, hoffers⟩ := hselected.exists_offers rfl hq
  have hgrown := hselected.within hoffers.within
  let store := (start.store.candidates u.tag).store
  have hresult : (start.store.candidates u.tag).result = .ok xs := hoffers.result_eq
  let v : View := { expr := e, place := above ++ [index] }
  have hbare : (xs.map store.shown).map Placement.bare = v.candidates :=
    hoffers.map_bare_map_shown hselected
  have hindex : store.indexInParent u.tag = .ok index := hgrown.indexInParent_eq rfl
  have hexpr : store.expr u.tag = u.erase := (hgrown.invariant.owns.subtreeAt? hu).expr_eq
  -- What is shown of the candidates can be said of the expression alone.
  have htexts : (xs.map store.shown).map (fun p => (p.flat, p.position)) =
      (List.range cs.length).map fun position =>
        (placedText shape cs index u.erase position, position) := by
    rw [← View.texts_candidates (v := v) rfl haround hc, ← hbare,
      List.map_map (l := xs.map store.shown)]
    refine List.map_congr_left fun p _ => ?_
    rw [Function.comp_apply, Placement.bare, Placement.flat, Placement.flat, Tree.flat_map]
  obtain ⟨rows, below, hshown, hshows⟩ :=
    Display.exists_candidates_eq hc htexts u.erase.flat settings.maxPreview
  refine ⟨rows, below, ?_, hshows⟩
  rw [hstart.selectPath_eq hu]
  simp only [Session.candidates, hresult]
  cases xs with
  | nil => exact absurd hoffers.index_lt (by simp [← hoffers.length_eq])
  | cons x xs =>
    simp only [store] at hindex hexpr hshown
    simp only [Except.mapError, hindex, hexpr, hshown]
    rfl

/-- A run that is asked for the placements of a child of a node shows one table of them and nothing
else, apart from the line that says how many are left out. At least one placement is shown, whatever
is set in the environment. -/
theorem run_candidates (hcalls : front.Calls env args threshold .candidates rest)
    (hparse : parse text = .ok e) (haround : e.subtreeAt? above = some (.branch () shape cs))
    (hc : cs[index]? = some c)
    (hrequest : front.request front.readFocus files .candidates rest =
      .ok (.candidates text ((above ++ [index]).map Int.ofNat))) :
    let limit := (Settings.ofEnvironment env).1.maxPreview
    limit = max 1 ((Text.integer? (Text.strip (env "EXPREDIT_MAX_PREVIEW"))).getD 20).toNat ∧
      1 ≤ limit ∧ ∃ rows below,
        (run front env files args).quiet =
          { blocks :=
              .table ("Placements of ".toList ++ c.flat) Display.candidateColumns rows :: below
            threshold } ∧
        ShowsPlacements shape cs index c limit rows below := by
  intro limit
  have hlimit := Settings.maxPreview_ofEnvironment env
  obtain ⟨rows, below, hreport, hshows⟩ := report_showCandidates (parse_eq_ok_iff.mp hparse).1
    haround hc (Settings.ofEnvironment env).1 threshold
  refine ⟨hlimit, ?_, rows, below, ?_, hshows⟩
  · exact (Nat.le_max_left 1 _).trans (Nat.le_of_eq hlimit.symm)
  · rw [hcalls.quiet_run_of_ok hrequest, Request.perform, withExpression, hparse, ← hreport]
    rfl

/-- Of the three placements of the first term, two are shown. -/
theorem run_candidates_two_of_three :
    let env : Environment := fun name =>
      if name = "EXPREDIT_MAX_PREVIEW" then [' ', '2'] else []
    let files : Files := fun _ => .absent
    let rest := ["2*x+3*y+z".toList, "--focus".toList, "0".toList]
    let front := FrontEnd.scanner
    let args := "candidates".toList :: rest
    let x : Expr := .literal () ⟨['x'], rfl⟩
    let y : Expr := .literal () ⟨['y'], rfl⟩
    let z : Expr := .literal () ⟨['z'], rfl⟩
    let first : Expr := .branch () (.chain .times) [.literal () ⟨['2'], rfl⟩, x]
    let second : Expr := .branch () (.chain .times) [.literal () ⟨['3'], rfl⟩, y]
    let e : Expr := .branch () (.chain .plus) [first, second, z]
    front.Calls env args .warning .candidates rest ∧ parse "2*x+3*y+z".toList = .ok e ∧
      e.subtreeAt? [] = some e ∧ [first, second, z][0]? = some first ∧
      front.request front.readFocus files .candidates rest =
        .ok (.candidates "2*x+3*y+z".toList ([0].map Int.ofNat)) ∧
      ∃ rows below, (run front env files args).quiet =
          { blocks := .table "Placements of 2*x".toList Display.candidateColumns rows :: below
            threshold := .warning } ∧
        ShowsPlacements (.chain .plus) [first, second, z] 0 first 2 rows below ∧
        rows.length = 2 ∧
        rows[0]? = some [['0'], ['0'], "2*x+3*y+z [yellow](current)[/yellow]".toList] := by
  intro env files rest front args x y z first second e
  have hcalls : front.Calls env args .warning .candidates rest :=
    FrontEnd.calls_of_strip_eq_nil rfl rfl
  have hparse : parse "2*x+3*y+z".toList = .ok e := by decide +kernel
  have hrequest : front.request front.readFocus files .candidates rest =
      .ok (.candidates "2*x+3*y+z".toList (([] ++ [0]).map Int.ofNat)) := by rfl
  have haround : e.subtreeAt? [] = some (.branch () (.chain .plus) [first, second, z]) := rfl
  obtain ⟨hlimit, -, rows, below, hreport, hshows⟩ :=
    run_candidates hcalls hparse haround rfl hrequest
  have htwo : (Settings.ofEnvironment env).1.maxPreview = 2 := hlimit.trans (by decide +kernel)
  have htitle : "Placements of ".toList ++ first.flat = "Placements of 2*x".toList := by
    decide +kernel
  have hmarked : [Display.digits (0 : Nat), Display.digits (0 : Nat),
      e.flat ++ Display.currentMark] =
      [['0'], ['0'], "2*x+3*y+z [yellow](current)[/yellow]".toList] := by decide +kernel
  rw [htwo] at hshows
  rw [htitle] at hreport
  exact ⟨hcalls, hparse, rfl, rfl, hrequest, rows, below, hreport, hshows, hshows.length_eq,
    (hshows.current_eq (by decide)).trans (congrArg some hmarked)⟩

end CommandLine

end Rearrange
