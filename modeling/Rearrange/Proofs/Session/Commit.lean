import Rearrange.Proofs.Session.Reachable
import Rearrange.Proofs.Store.Datum

namespace Rearrange

namespace View

variable {v w : View} {reparse : Bool}

/-- A commit keeps the expression or reads it from its text. -/
private theorem expr_of_commit (h : v.commit reparse = .ok w) :
    reparse = false ∧ w.expr = v.expr ∨ reparse = true ∧ parse v.expr.flat = .ok w.expr := by
  rw [commit] at h
  cases reparse with
  | false =>
    obtain rfl := Except.ok.inj h
    exact .inl ⟨rfl, rfl⟩
  | true =>
    cases hparse : parse v.expr.flat with
    | error e =>
      rw [if_pos rfl, hparse] at h
      cases h
    | ok e =>
      rw [if_pos rfl, hparse] at h
      obtain rfl := Except.ok.inj h
      exact .inr ⟨rfl, rfl⟩

/-- A commit keeps the flat text. -/
private theorem flat_of_commit (h : v.commit reparse = .ok w) : w.expr.flat = v.expr.flat := by
  obtain ⟨-, hsame⟩ | ⟨-, hparse⟩ := expr_of_commit h
  · rw [hsame]
  · exact (parse_eq_ok_iff.mp hparse).2.trans v.expr.squeeze_flat

/-- A commit keeps the expression when it does not read it again or the expression is canonical. -/
theorem expr_eq_iff_of_commit (h : v.commit reparse = .ok w) :
    w.expr = v.expr ↔ reparse = false ∨ v.expr.IsCanonical := by
  obtain ⟨hreparse, hsame⟩ | ⟨rfl, hparse⟩ := expr_of_commit h
  · exact iff_of_true hsame (.inl hreparse)
  · constructor
    · intro hsame
      exact .inr (hsame ▸ (parse_eq_ok_iff.mp hparse).1)
    · rintro (hreparse | hcanonical)
      · cases hreparse
      · rw [parse_flat hcanonical, Tree.erase_eq] at hparse
        exact (Except.ok.inj hparse).symm

end View

namespace Session

variable {start s : Session} {t : Tree NodeId} {v : View} {reparse : Bool} {answer : Answer}

/-- A commit that succeeds is a commit of the view. -/
theorem Shows.exists_commit (h : Shows s t v)
    (hok : (Session.step { s with reparse } .commit).result = .ok answer) :
    ∃ t' w, Shows (Session.step { s with reparse } .commit).session t' w ∧
      v.commit reparse = .ok w := by
  obtain ⟨hresult, t', ht'⟩ := (h.setReparse reparse).step .commit
  rw [hok, View.step] at hresult
  rw [View.step] at ht'
  cases hcommit : v.commit reparse with
  | error e =>
    rw [hcommit] at hresult
    cases hresult
  | ok w =>
    rw [hcommit] at ht'
    exact ⟨t', w, ht', rfl⟩

/-- After a commit that succeeds the text is what it was, and the expression is what it was if and
only if the text has not been read again or the expression is canonical. -/
theorem expr_commit_eq_iff (h : Reachable start s)
    (hstart : (∃ store source reparse, start = ofNode store source reparse) ∨
      ∃ text reparse, ofText text reparse = .ok start)
    (hok : (step { s with reparse } .commit).result = .ok answer) :
    (step { s with reparse } .commit).session.text = s.text ∧
      ((step { s with reparse } .commit).session.expr = s.expr ↔
        reparse = false ∨ s.expr.IsCanonical) := by
  obtain ⟨t, ht⟩ : ∃ t, start.Invariant t := by
    obtain ⟨store, source, reparse, rfl⟩ | ⟨text, reparse, hread⟩ := hstart
    · exact exists_invariant_ofNode store source reparse
    · obtain ⟨t, ht, -⟩ := exists_invariant_ofText hread
      exact ⟨t, ht⟩
  obtain ⟨u, hu, -⟩ := h.evolves ht
  obtain ⟨v, hv⟩ := hu.exists_shows
  obtain ⟨t', w, hw, hcommit⟩ := hv.exists_commit hok
  rw [text, text, hw.expr_eq, hv.expr_eq]
  exact ⟨View.flat_of_commit hcommit, View.expr_eq_iff_of_commit hcommit⟩

/-- A group that holds two expressions says the first of them only, and a commit drops the second
one. -/
theorem expr_commit_eq_iff_crowded_group :
    let a : Expr := .literal () ⟨['a'], rfl⟩
    let start := ofExpr (.branch () .group [a, a]) true
    let o := step { start with reparse := true } .commit
    o.result = .ok (.committed "(a)".toList) ∧ o.session.text = start.text ∧
      (o.session.expr = start.expr ↔ true = false ∨ start.expr.IsCanonical) := by
  intro a start o
  have hparse : parse "(a)".toList = .ok (.branch () .group [a]) :=
    parse_eq_ok_iff.mpr ⟨.group () (.literal () _), by decide⟩
  have htext : text { start with reparse := true } = "(a)".toList := by decide +kernel
  have hok : o.result = .ok (.committed "(a)".toList) := by
    simp only [o, step, perform, commit, htext, hparse]
    rfl
  exact ⟨hok, expr_commit_eq_iff .start (.inl ⟨_, _, _, rfl⟩) hok⟩

/-- A product of a sum without parentheses is accepted as data, and a commit makes it a sum of a
product. -/
theorem commit_regroups_sum_in_product :
    let a : Expr := .literal () ⟨['a'], rfl⟩
    let b : Expr := .literal () ⟨['b'], rfl⟩
    let c : Expr := .literal () ⟨['c'], rfl⟩
    let e : Expr := .branch () (.chain .times) [.branch () (.chain .plus) [a, b], c]
    let o := step (ofExpr e true) .commit
    (∃ top store, (∅ : Store).ofDatum e.toDatum = .ok (top, store) ∧ store.expr top = e) ∧
      o.result = .ok (.committed "a+b*c".toList) ∧
      o.session.expr = .branch () (.chain .plus) [a, .branch () (.chain .times) [b, c]] ∧
      o.session.expr ≠ (ofExpr e true).expr := by
  intro a b c e o
  have hparse : parse "a+b*c".toList =
      .ok (.branch () (.chain .plus) [a, .branch () (.chain .times) [b, c]]) := by
    refine parse_eq_ok_iff.mpr ⟨?_, by decide⟩
    simp [Tree.isCanonical_chain_iff, Tree.kind, Operator.admits, Tree.IsCanonical.literal, a, b, c]
  have hflat : e.flat = "a+b*c".toList := by decide
  obtain ⟨t, ht⟩ := exists_shows_ofExpr (e := e) (by decide +kernel) true
  have hreparse : (ofExpr e true).reparse = true := reparse_ofNode ..
  obtain ⟨hresult, t', ht'⟩ := ht.step .commit
  rw [hreparse, View.step, View.commit, hflat, hparse] at hresult ht'
  obtain ⟨top, store, hmade, hstore, -⟩ := Store.exists_ofDatum_toDatum ∅ e
  refine ⟨⟨top, store, hmade, hstore⟩, Answer.map_bare_eq_committed_iff.mp hresult, ht'.expr_eq, ?_⟩
  rw [ht'.expr_eq, ht.expr_eq]
  decide +kernel

end Session

end Rearrange
