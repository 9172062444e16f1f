import Rearrange.Proofs.Session.Step

namespace Rearrange

/-- What one sees of a session between two commands. -/
structure Observation where
  expr : Expr
  text : List Char
  focusPath : Except LookupError (List Nat)
  focusLabel : String
  history : List (List Char)

/-- What one sees of a command and of the session after it. -/
abbrev Observed := Except SessionError Answer × Observation

namespace Session

/-- What one sees of the session. -/
def observe (s : Session) : Observation :=
  ⟨s.expr, s.text, s.focusPath, s.label s.focus, s.history⟩

/-- What one sees of a run in which each command comes with the setting that says whether a commit
reads its text again. -/
def observations (s : Session) : List (Command × Bool) → List Observed
  | [] => []
  | (c, reparse) :: rest =>
    let o := step { s with reparse } c
    (o.result.map Answer.bare, o.session.observe) :: o.session.observations rest

end Session

namespace View

/-- What one sees of a session that shows the view. -/
def observe (v : View) : Observation :=
  ⟨v.expr, v.expr.flat, .ok v.place, v.part.label, v.history⟩

/-- What one sees of a run of a session that shows the view. -/
def observations (v : View) : List (Command × Bool) → List Observed
  | [] => []
  | (c, reparse) :: rest =>
    ((v.step reparse c).1, (v.step reparse c).2.observe) ::
      (v.step reparse c).2.observations rest

/-- In a run from a canonical expression it makes no difference which commits read their text
again. -/
theorem observations_congr {v : View} (h : v.expr.IsCanonical)
    (steps : List (Command × Bool × Bool)) :
    v.observations (steps.map fun x => (x.1, x.2.1)) =
      v.observations (steps.map fun x => (x.1, x.2.2)) := by
  -- Every command leaves the expression canonical, which is what the next one needs.
  induction steps generalizing v with
  | nil => rfl
  | cons first rest ih =>
    obtain ⟨c, reparse, reparse'⟩ := first
    rw [List.map_cons, List.map_cons, observations, observations,
      step_eq_of_isCanonical h reparse reparse' c]
    exact congrArg _ (ih ((rearranged_step h reparse' c).isCanonical h))

end View

namespace Session

variable {s : Session} {t : Tree NodeId} {v : View}

/-- What can be observed of a session is what its view shows. -/
theorem Shows.observe_eq (h : Shows s t v) : s.observe = v.observe := by
  rw [observe, View.observe, text, h.expr_eq, h.focusPath_eq, h.label_focus, h.history_eq]

/-- What can be observed along steps is what the view shows along them. -/
theorem Shows.observations_eq (h : Shows s t v) (steps : List (Command × Bool)) :
    s.observations steps = v.observations steps := by
  induction steps generalizing s t v with
  | nil => rfl
  | cons first rest ih =>
    obtain ⟨c, reparse⟩ := first
    obtain ⟨hresult, t', ht'⟩ := (h.setReparse reparse).step c
    rw [observations, View.observations, ← ih ht', ← ht'.observe_eq, ← hresult]

/-- Two sessions about one text that get the same commands look the same after each of them, and so
does what the commands answer, wherever the sessions differ in whether a commit reads its text
again. -/
theorem observations_eq_of_parse {text : List Char} {e : Expr} (hparse : parse text = .ok e)
    (reparse reparse' : Bool) :
    ∃ s s', ofText text reparse = .ok s ∧ ofText text reparse' = .ok s' ∧
      s.observe = s'.observe ∧ ∀ steps : List (Command × Bool × Bool),
        s.observations (steps.map fun x => (x.1, x.2.1)) =
          s'.observations (steps.map fun x => (x.1, x.2.2)) := by
  obtain ⟨s, t, hs, hshows⟩ := exists_ofText hparse reparse
  obtain ⟨s', t', hs', hshows'⟩ := exists_ofText hparse reparse'
  refine ⟨s, s', hs, hs', ?_, fun steps => ?_⟩
  · rw [hshows.observe_eq, hshows'.observe_eq]
  · rw [hshows.observations_eq, hshows'.observations_eq]
    exact View.observations_congr (parse_eq_ok_iff.mp hparse).1 steps

/-- Two commits with a move and a failing command between them: one session reads its text again at
the first commit, the other one at the second, and their handles differ in the meantime. -/
theorem observations_eq_with_other_handles :
    let x : Expr := .literal () ⟨['x'], rfl⟩
    let e : Expr := .branch () (.chain .plus)
      [.literal () ⟨['1'], rfl⟩, .branch () (.chain .times) [x, x]]
    let start reparse : Session :=
      load { store := Store.empty.plant (e.map fun _ => none), root := 0, focus := 0, reparse } 0
    let steps : List (Command × Bool × Bool) :=
      [(.commit, true, false), (.selectPath [1], true, true), (.moveTo 0, true, true),
        (.moveTo 2, true, true), (.commit, false, true)]
    parse "1+x*x".toList = .ok e ∧ ofText "1+x*x".toList true = .ok (start true) ∧
      ofText "1+x*x".toList false = .ok (start false) ∧
      (step (start true) .commit).session.nextHandle = 11 ∧
      (step (start false) .commit).session.nextHandle = 6 ∧
      (start true).observe = (start false).observe ∧
      (start true).observations (steps.map fun x => (x.1, x.2.1)) =
        (start false).observations (steps.map fun x => (x.1, x.2.2)) := by
  intro x e start steps
  have hparse : parse "1+x*x".toList = .ok e := by
    refine parse_eq_ok_iff.mpr ⟨?_, by decide⟩
    simp [Tree.isCanonical_chain_iff, Tree.kind, Operator.admits, Tree.IsCanonical.literal, e, x]
  have hstart : ∀ reparse, ofText "1+x*x".toList reparse = .ok (start reparse) := by
    intro reparse
    rw [ofText, hparse]
    rfl
  obtain ⟨s, s', hs, hs', hobserve, hsteps⟩ := observations_eq_of_parse hparse true false
  obtain rfl := Except.ok.inj ((hstart true).symm.trans hs)
  obtain rfl := Except.ok.inj ((hstart false).symm.trans hs')
  have htext : (start true).text = "1+x*x".toList := by decide +kernel
  have hread : (step (start true) .commit).session.nextHandle = 11 := by
    simp only [step, perform, commit, htext, hparse]
    decide +kernel
  exact ⟨hparse, hs, hs', hread, by decide +kernel, hobserve, hsteps steps⟩

end Session

end Rearrange
