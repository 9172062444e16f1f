import Rearrange.Proofs.CommandLine.Run
import Rearrange.Proofs.CommandLine.Scanner
import Rearrange.Proofs.Session.Step

namespace Rearrange.CommandLine

/-- The expression after the part that a path leads to has been moved, or why it cannot be. -/
def moveExpr (path : List Int) (position : Int) (e : Expr) : Except SessionError Expr :=
  match e.followFrom 0 path with
  | .error missing => .error (.lookup missing)
  | .ok _ =>
    (View.moveTo { expr := e, place := path.map Int.toNat } position).map (·.expr)

/-- How a move ends with the expression that comes of it, or with the reason why there is none. -/
def endingOf : Except SessionError Expr → Ending
  | .error cause => cannotMove cause []
  | .ok e => { output := e.flat ++ ['\n'] }

/-- How a move ends, worked out without a session. -/
def moveEnding (text : List Char) (path : List Int) (position : Int) : Ending :=
  match parse text with
  | .error e => { exit := 1, blocks := Display.parseError text e }
  | .ok e => endingOf (moveExpr path position e)

/-- What a run of a move reports, worked out without a session. -/
def FrontEnd.moveReport {ε : Type} (front : FrontEnd ε) (text focus : List Char) (position : Int)
    (threshold : Threshold) : Report ε :=
  match front.readFocus focus with
  | .error e => { exit := front.status e, failure := some (.usage e), threshold }
  | .ok path => (moveEnding text path position).report threshold

/-- The ways in which a move ends, with the exit status and the output. -/
inductive MoveEnds (text focus : List Char) (position : Int) : Nat → List Char → Prop where
  /-- The focus is not written as a path. -/
  | badFocus (hfocus : ∀ path, ¬ Names focus path) : MoveEnds text focus position 2 []
  /-- The text cannot be read. -/
  | badText {path : List Int} {e : ParseError} (hfocus : Names focus path)
      (hparse : parse text = .error e) : MoveEnds text focus position 1 []
  /-- The path and the position do not say how to move a part of the expression. -/
  | badPlace {path : List Int} {e : Expr} (hfocus : Names focus path)
      (hparse : parse text = .ok e) (hplace : e.Misplaced path position) :
      MoveEnds text focus position 2 []
  /-- The part that the path leads to is moved. The line that is printed is read as the expression
  that comes of it. -/
  | moved {path : List Int} {e e' : Expr} (hfocus : Names focus path) (hparse : parse text = .ok e)
      (hmoved : e.MovedTo path position e') (hread : parse e'.flat = .ok e') :
      MoveEnds text focus position 0 (e'.flat ++ ['\n'])

variable {ε : Type} {front : FrontEnd ε} {env : Environment} {files : Files}
  {args rest : List (List Char)} {threshold : Threshold} {text focus : List Char}
  {path : List Int} {position : Int} {e e' : Expr}

/-- Where there is a tree that the move leads to, this is the result. -/
theorem moveExpr_of_movedTo (h : e.MovedTo path position e') :
    moveExpr path position e = .ok e' := by
  obtain ⟨place, index, target, a, s, cs, c, rfl, rfl, haround, hindex, htarget, rfl⟩ := h
  obtain ⟨hlt, rfl⟩ := List.getElem?_eq_some_iff.mp hindex
  have hplace : e.subtreeAt? (place ++ [index]) = some cs[index] := by
    rw [Tree.subtreeAt?_concat haround]
    exact hindex
  rw [moveExpr, Tree.followFrom_natCast 0 hplace, map_toNat_map_ofNat]
  simp only [View.moveTo_eq (v := { expr := e, place := place ++ [index] }) rfl haround htarget,
    Tree.withMoved, moveElement_eq hlt, Except.map]

/-- A misplaced path or position is refused. -/
theorem exists_moveExpr_eq_error (h : e.Misplaced path position) :
    ∃ missing, moveExpr path position e = .error (.lookup missing) := by
  rw [moveExpr]
  cases hfollow : e.followFrom 0 path with
  | error missing => exact ⟨missing, rfl⟩
  | ok c =>
    obtain ⟨place, rfl, hc⟩ := Tree.followFrom_eq_ok_iff.mp hfollow
    let v : View := { expr := e, place }
    -- Since the path leads to a node, it is the root or the position is out of range.
    have hnone : elementAt? v.candidates position = none := by
      obtain hroot | hmissing | ⟨above, index, around, haround, hpath, hposition⟩ := h
      · obtain rfl := List.map_eq_nil_iff.mp hroot
        exact elementAt?_eq_none_iff.mpr fun hrange => absurd hrange.2 (Int.not_lt.mpr hrange.1)
      · exact absurd rfl (hmissing place c hc)
      · have hplace : place = above ++ [index] := by
          rw [← map_toNat_map_ofNat place, hpath, map_toNat_map_ofNat]
        rw [View.candidates_concat hplace haround, elementAt?_eq_none_iff, List.length_map,
          List.length_range]
        exact hposition
    obtain ⟨missing, hmove⟩ := View.exists_moveTo_eq_error hnone
    refine ⟨missing, ?_⟩
    simp only [map_toNat_map_ofNat, v] at hmove ⊢
    rw [hmove]
    rfl

/-- A canonical tree stays canonical. -/
theorem isCanonical_of_moveExpr (h : e.IsCanonical) (hmove : moveExpr path position e = .ok e') :
    e'.IsCanonical := by
  rw [moveExpr] at hmove
  split at hmove
  · cases hmove
  · cases hmoved : View.moveTo { expr := e, place := path.map Int.toNat } position with
    | error cause =>
      rw [hmoved] at hmove
      cases hmove
    | ok w =>
      rw [hmoved] at hmove
      obtain rfl := Except.ok.inj hmove
      exact (View.rearranged_moveTo hmoved).isCanonical h

/-- A commit that succeeds writes a line. -/
private theorem quiet_commit {s : Session} {text : List Char} (h : s.commit.result = .ok text) :
    (commit s).quiet = { output := text ++ ['\n'] } := by
  rw [commit]
  generalize s.commit = committed at h ⊢
  obtain ⟨result, session, notes⟩ := committed
  obtain rfl : result = .ok text := h
  rfl

/-- What is noted on the way does not change how a refusal is reported. -/
private theorem quiet_cannotMove (cause : SessionError) (notes : List Note) :
    (cannotMove cause notes).quiet = (cannotMove cause []).quiet := by
  cases cause <;> rfl

/-- A session that shows an expression ends a move as the expression tells. -/
private theorem quiet_moveTo {s : Session} {t : Tree NodeId} {v : View} (h : s.Shows t v)
    (hcanonical : v.expr.IsCanonical) (position : Int) :
    (match s.moveTo position with
      | { result := .error cause, notes, .. } => cannotMove cause notes
      | { result := .ok _, session, notes } => (commit session).withNotes notes : Ending).quiet =
      (endingOf ((v.moveTo position).map (·.expr))).quiet := by
  have hmove := h.moveTo position
  rw [Session.perform, View.step] at hmove
  generalize s.moveTo position = moved at hmove ⊢
  cases hmoved : v.moveTo position with
  | error cause =>
    simp only [hmoved] at hmove
    have hresult := hmove.result_eq_error
    obtain ⟨result, s', notes⟩ := moved
    obtain rfl : result = _ := hresult
    exact quiet_cannotMove _ _
  | ok w =>
    simp only [hmoved] at hmove
    obtain ⟨done, hresult, -⟩ := hmove.exists_result_eq_ok
    obtain ⟨-, t', hshows⟩ := hmove
    obtain ⟨result, s', notes⟩ := moved
    obtain rfl : result = _ := hresult
    have hcommit := Session.Shows.commit (s := s') hshows
    rw [Session.perform, View.step_commit ((View.rearranged_moveTo hmoved).isCanonical hcanonical)]
      at hcommit
    obtain ⟨text, hresult, htext⟩ := hcommit.exists_result_eq_ok
    obtain rfl := Answer.committed.inj htext
    exact quiet_commit hresult

/-- The session of a move does to the expression what can be told without a session. -/
theorem quiet_moveNode (h : e.IsCanonical) (settings : Settings) (path : List Int)
    (position : Int) :
    (moveNode settings path position e).quiet = (endingOf (moveExpr path position e)).quiet := by
  obtain ⟨t, hstart⟩ := Session.exists_shows_ofExpr h.isFlat settings.reparse
  have hselect := hstart.selectPath path
  rw [Session.perform, View.step] at hselect
  rw [moveNode, moveExpr]
  generalize (Session.ofExpr e settings.reparse).selectPath path = selected at hselect ⊢
  cases hfollow : e.followFrom 0 path with
  | error missing =>
    simp only [hfollow] at hselect
    have hresult := hselect.result_eq_error
    obtain ⟨result, s, notes⟩ := selected
    obtain rfl : result = _ := hresult
    exact quiet_cannotMove _ _
  | ok c =>
    simp only [hfollow] at hselect
    obtain ⟨id, hresult, -⟩ := hselect.exists_result_eq_ok
    obtain ⟨-, t', hselected⟩ := hselect
    obtain ⟨result, s, notes⟩ := selected
    obtain rfl : result = _ := hresult
    exact quiet_moveTo (s := s) hselected h position

/-- A request for a move ends as the text, the path and the position tell. -/
theorem quiet_perform_move (settings : Settings) (files : Files) (text : List Char)
    (path : List Int) (position : Int) :
    ((Request.move text path position).perform settings files).quiet =
      (moveEnding text path position).quiet := by
  rw [Request.perform, withExpression, moveEnding]
  cases hparse : parse text with
  | error e => rfl
  | ok e => exact quiet_moveNode (parse_eq_ok_iff.mp hparse).1 settings path position

/-- A run of a move reports what the text, the focus and the position tell. -/
theorem quiet_run_move (hcalls : front.Calls env args threshold .move rest)
    (hdelivers : front.Delivers files rest text focus position) :
    (run front env files args).quiet = front.moveReport text focus position threshold := by
  have hrequest := hdelivers front.readFocus
  rw [FrontEnd.moveReport]
  cases hpath : front.readFocus focus with
  | error e =>
    rw [hpath] at hrequest
    exact hcalls.quiet_run_of_error hrequest
  | ok path =>
    rw [hpath] at hrequest
    rw [hcalls.quiet_run_of_ok hrequest]
    exact Ending.report_congr (quiet_perform_move _ files text path position) threshold

/-- Each way in which a move ends is what is reported, which is never that the run broke off. -/
theorem MoveEnds.report_eq {exit : Nat} {output : List Char}
    (h : MoveEnds text focus position exit output)
    (hstatus : ∀ reason, front.status (front.badParameter reason) = 2) (threshold : Threshold) :
    let report := front.moveReport text focus position threshold
    exit = report.exit ∧ output = report.output ∧
      ∀ fault, report.failure ≠ some (.fault fault) := by
  cases h with
  | badFocus hfocus =>
    obtain ⟨reason, hpath⟩ := front.exists_readFocus_eq_error hfocus
    simp [FrontEnd.moveReport, hpath, hstatus]
  | badText hfocus hparse =>
    simp [FrontEnd.moveReport, FrontEnd.readFocus_eq_ok_iff.mpr hfocus, moveEnding, hparse,
      Ending.report]
  | badPlace hfocus hparse hplace =>
    obtain ⟨missing, hmove⟩ := exists_moveExpr_eq_error hplace
    simp [FrontEnd.moveReport, FrontEnd.readFocus_eq_ok_iff.mpr hfocus, moveEnding, hparse, hmove,
      endingOf, cannotMove, Ending.line, Ending.report]
  | moved hfocus hparse hmoved hread =>
    simp [FrontEnd.moveReport, FrontEnd.readFocus_eq_ok_iff.mpr hfocus, moveEnding, hparse,
      moveExpr_of_movedTo hmoved, endingOf, Ending.report]

/-- A move always ends in one of these ways. -/
theorem exists_moveEnds (text focus : List Char) (position : Int) :
    ∃ exit output, MoveEnds text focus position exit output := by
  by_cases hpath : ∃ path, Names focus path
  · obtain ⟨path, hfocus⟩ := hpath
    cases hparse : parse text with
    | error e => exact ⟨1, [], .badText hfocus hparse⟩
    | ok e =>
      obtain hplace | ⟨e', hmoved⟩ := e.misplaced_or_exists_movedTo path position
      · exact ⟨2, [], .badPlace hfocus hparse hplace⟩
      · have hcanonical := isCanonical_of_moveExpr (parse_eq_ok_iff.mp hparse).1
          (moveExpr_of_movedTo hmoved)
        have hread := parse_flat hcanonical
        rw [Tree.erase_eq] at hread
        exact ⟨0, _, .moved hfocus hparse hmoved hread⟩
  · exact ⟨2, [], .badFocus (not_exists.mp hpath)⟩

/-- A run of a move ends in exactly one of the ways there are, and never breaks off. What it reports
does not depend on whether a commit reads its text again. The front end finds the move in the
arguments, and has the status 2 for a bad parameter. -/
theorem run_move (hcalls : front.Calls env args threshold .move rest)
    (hdelivers : front.Delivers files rest text focus position)
    (hstatus : ∀ reason, front.status (front.badParameter reason) = 2) :
    let report := run front env files args
    (∀ exit output, MoveEnds text focus position exit output ↔
        exit = report.exit ∧ output = report.output) ∧
      (∀ fault, report.failure ≠ some (.fault fault)) ∧
      ∀ env' : Environment,
        (∀ name, name ≠ "EXPREDIT_REPARSE_ON_COMMIT" → env' name = env name) →
          (run front env' files args).quiet = report.quiet := by
  intro report
  have hquiet : report.quiet = front.moveReport text focus position threshold :=
    quiet_run_move hcalls hdelivers
  -- Each ending fixes the report, and there is one, so no two of them can hold together.
  have hends : ∀ exit output, MoveEnds text focus position exit output →
      exit = report.exit ∧ output = report.output ∧
        ∀ fault, report.failure ≠ some (.fault fault) := by
    intro exit output h
    have hreport := h.report_eq hstatus threshold
    rw [← hquiet] at hreport
    exact hreport
  obtain ⟨exit, output, h⟩ := exists_moveEnds text focus position
  obtain ⟨hexit, houtput, hfailure⟩ := hends exit output h
  refine ⟨fun exit' output' => ⟨fun h' => ?_, ?_⟩, hfailure, fun env' henv => ?_⟩
  · obtain ⟨hexit', houtput', -⟩ := hends exit' output' h'
    exact ⟨hexit', houtput'⟩
  · rintro ⟨rfl, rfl⟩
    rwa [← hexit, ← houtput]
  · have hcalls' := hcalls.congr (henv "EXPREDIT_LOG_LEVEL" (by decide))
    rw [quiet_run_move hcalls' hdelivers, hquiet]

/-- The last term of a sum is moved to its front. -/
theorem run_move_last_term_to_front :
    let front := FrontEnd.scanner
    let env : Environment := fun _ => []
    let files : Files := fun _ => .absent
    let rest := ["2*x+3*y+z".toList, "--focus".toList, "2".toList, "--to".toList, "0".toList]
    let args := "move".toList :: rest
    front.Calls env args .warning .move rest ∧
      front.Delivers files rest "2*x+3*y+z".toList "2".toList 0 ∧
      (∀ reason, front.status (front.badParameter reason) = 2) ∧
      (run front env files args).exit = 0 ∧
      (run front env files args).output = "z+2*x+3*y\n".toList ∧
      (∀ fault, (run front env files args).failure ≠ some (.fault fault)) ∧
      ∀ env' : Environment,
        (∀ name, name ≠ "EXPREDIT_REPARSE_ON_COMMIT" → env' name = env name) →
          (run front env' files args).quiet = (run front env files args).quiet := by
  intro front env files rest args
  have hcalls : front.Calls env args .warning .move rest := FrontEnd.calls_of_strip_eq_nil rfl rfl
  have hposition : Text.integer? "0".toList = some 0 := by decide +kernel
  have hdelivers : front.Delivers files rest "2*x+3*y+z".toList "2".toList 0 :=
    delivers_scanner rfl rfl rfl rfl rfl hposition files
  have hstatus : ∀ reason, front.status (front.badParameter reason) = 2 := fun _ => rfl
  let x : Expr := .literal () ⟨['x'], rfl⟩
  let y : Expr := .literal () ⟨['y'], rfl⟩
  let z : Expr := .literal () ⟨['z'], rfl⟩
  let two : Expr := .literal () ⟨['2'], rfl⟩
  let three : Expr := .literal () ⟨['3'], rfl⟩
  let products : List Expr := [.branch () (.chain .times) [two, x],
    .branch () (.chain .times) [three, y]]
  let e : Expr := .branch () (.chain .plus) (products ++ [z])
  let e' : Expr := .branch () (.chain .plus) (z :: products)
  have hparse : parse "2*x+3*y+z".toList = .ok e := by
    refine parse_eq_ok_iff.mpr ⟨?_, by decide +kernel⟩
    simp [Tree.isCanonical_chain_iff, Tree.kind, Operator.admits, Tree.IsCanonical.literal, e, x, y,
      z, two, three, products]
  have hmoved : e.MovedTo [2] 0 e' :=
    ⟨[], 2, 0, (), .chain .plus, products ++ [z], z, rfl, rfl, rfl, rfl, by decide, rfl⟩
  have hread : parse e'.flat = .ok e' := by
    refine parse_eq_ok_iff.mpr ⟨?_, by decide +kernel⟩
    simp [Tree.isCanonical_chain_iff, Tree.kind, Operator.admits, Tree.IsCanonical.literal, e', x,
      y, z, two, three, products]
  have hfocus : Names "2".toList [2] := focusPath?_strip_eq_some_iff.mp (by decide +kernel)
  have hflat : e'.flat ++ ['\n'] = "z+2*x+3*y\n".toList := by decide +kernel
  obtain ⟨hends, hfailure, hsame⟩ := run_move hcalls hdelivers hstatus
  obtain ⟨hexit, houtput⟩ := (hends _ _).mp (.moved hfocus hparse hmoved hread)
  exact ⟨hcalls, hdelivers, hstatus, hexit.symm, houtput.symm.trans hflat, hfailure, hsame⟩

end Rearrange.CommandLine
