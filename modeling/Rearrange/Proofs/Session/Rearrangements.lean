import Rearrange.Proofs.Session.Reachable

namespace Rearrange

/-- The command focuses a node by its path or moves the focused node. -/
def Command.Arranges : Command → Prop
  | .selectPath _ => True
  | .moveTo _ => True
  | _ => False

namespace Session

variable {start s : Session} {t : Tree NodeId} {v : View} {e : Expr}

theorem run_append (s : Session) (as bs : List Command) :
    s.run (as ++ bs) = (s.run as).run bs := by
  induction as generalizing s with
  | nil => rfl
  | cons c as ih => exact ih _

/-- Running commands leads to reachable sessions. -/
theorem Reachable.run (h : Reachable start s) (cs : List Command) :
    Reachable start (s.run cs) := by
  induction cs generalizing s with
  | nil => exact h
  | cons c cs ih => exact ih (h.step s.reparse c)

/-- One child of a node is moved by focusing it and giving it its position. -/
theorem Shows.exists_run_of_moved (h : Shows s t v) (hmoved : Tree.Moved v.expr e) :
    ∃ path position t' v',
      Shows (s.run [.selectPath path, .moveTo position]) t' v' ∧ v'.expr = e := by
  obtain ⟨place, p, source, target, hp, hsource, htarget, rfl⟩ := hmoved
  have hchild : v.expr.subtreeAt? (place ++ [source]) = some p.children[source] := by
    rw [Tree.subtreeAt?_concat hp]
    exact List.getElem?_eq_getElem hsource
  obtain ⟨-, t₁, ht₁⟩ := h.step (.selectPath ((place ++ [source]).map Int.ofNat))
  rw [View.step_selectPath hchild] at ht₁
  obtain ⟨-, t₂, ht₂⟩ := ht₁.step (.moveTo target)
  obtain ⟨answer, hstep⟩ := View.step_moveTo (v := { v with place := place ++ [source] }) rfl hp
    htarget _
  rw [hstep] at ht₂
  exact ⟨_, _, t₂, _, ht₂, rfl⟩

/-- Moves of single children one after the other are carried out by a run. -/
theorem Shows.exists_run (h : Shows s t v)
    (hmoves : Relation.ReflTransGen Tree.Moved v.expr e) :
    ∃ cs : List Command, (∀ c ∈ cs, c.Arranges) ∧ (s.run cs).expr = e := by
  generalize hexpr : v.expr = first at hmoves
  induction hmoves using Relation.ReflTransGen.head_induction_on generalizing s t v with
  | refl => exact ⟨[], nofun, h.expr_eq.trans hexpr⟩
  | head hmoved _ ih =>
    subst hexpr
    obtain ⟨path, position, t', v', hshows, hexpr⟩ := h.exists_run_of_moved hmoved
    obtain ⟨cs, hcs, hrun⟩ := ih hshows hexpr
    refine ⟨[.selectPath path, .moveTo position] ++ cs, ?_, ?_⟩
    · exact List.forall_mem_cons.mpr ⟨trivial, List.forall_mem_cons.mpr ⟨trivial, hcs⟩⟩
    · rw [run_append, hrun]

/-- The expressions of the sessions that commands lead to from a text are the rearrangements of the
expression that the text is read as, and every rearrangement is reached by focusing nodes by their
paths and moving them. -/
theorem reachable_expr_iff_rearranged {text : List Char} (hparse : parse text = .ok e)
    (reparse : Bool) :
    ∃ start, ofText text reparse = .ok start ∧ ∀ u : Expr,
      ((∃ s, Reachable start s ∧ s.expr = u) ↔ e.Rearranged u) ∧
        (e.Rearranged u →
          ∃ cs : List Command, (∀ c ∈ cs, c.Arranges) ∧ (start.run cs).expr = u) := by
  obtain ⟨start, t, hstart, hshows⟩ := exists_ofText hparse reparse
  have hrun : ∀ u, e.Rearranged u →
      ∃ cs : List Command, (∀ c ∈ cs, c.Arranges) ∧ (start.run cs).expr = u :=
    fun u hu => hshows.exists_run hu.reflTransGen_moved
  refine ⟨start, hstart, fun u => ⟨⟨?_, fun hu => ?_⟩, hrun u⟩⟩
  · rintro ⟨s, hs, rfl⟩
    obtain ⟨t', ht', hrearranged⟩ := hs.evolves hshows.invariant
    obtain rfl : t.erase = e := hshows.erase_eq
    rw [ht'.expr_eq]
    exact hrearranged (Tree.isCanonical_erase_iff.mp (parse_eq_ok_iff.mp hparse).1)
  · obtain ⟨cs, -, hcs⟩ := hrun u hu
    exact ⟨start.run cs, Reachable.start.run cs, hcs⟩

/-- A product with a sum in parentheses, both put in another order. -/
theorem reachable_expr_swapped_twice :
    let a : Expr := .literal () ⟨['a'], rfl⟩
    let b : Expr := .literal () ⟨['b'], rfl⟩
    let c : Expr := .literal () ⟨['c'], rfl⟩
    let e : Expr := .branch () (.chain .times)
      [.branch () .group [.branch () (.chain .plus) [a, b]], c]
    let u : Expr := .branch () (.chain .times)
      [c, .branch () .group [.branch () (.chain .plus) [b, a]]]
    parse "(a+b)*c".toList = .ok e ∧ ∃ start, ofText "(a+b)*c".toList true = .ok start ∧
      (∃ s, Reachable start s ∧ s.expr = u) ∧
      ∃ cs : List Command, (∀ c ∈ cs, c.Arranges) ∧ (start.run cs).expr = u := by
  intro a b c e u
  have hparse : parse "(a+b)*c".toList = .ok e := by
    refine parse_eq_ok_iff.mpr ⟨?_, by decide⟩
    simp [Tree.isCanonical_chain_iff, Tree.isCanonical_group_iff, Tree.kind, Operator.admits,
      Tree.IsCanonical.literal, e, a, b, c]
  have hrearranged : e.Rearranged u := by
    refine .trans (.child () _ [] [c] (.child () _ [] [] (.perm () _ (.swap b a [])))) ?_
    exact .perm () _ (.swap _ _ [])
  obtain ⟨start, hstart, hreach⟩ := reachable_expr_iff_rearranged hparse true
  exact ⟨hparse, start, hstart, (hreach u).1.mpr hrearranged, (hreach u).2 hrearranged⟩

end Session

end Rearrange
