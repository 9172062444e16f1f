import Rearrange.Proofs.Store.Path
import Rearrange.Proofs.Tree.Moved

namespace Rearrange

/-- What a node shows of itself: its tag, what it is, and the tags of its children in order. -/
structure Entry (α : Type) where
  tag : α
  kind : Kind
  literal? : Option Literal
  children : List α

/-- The literal that a node is, if it is one. -/
def Content.literal? : Content → Option Literal
  | literal l => some l
  | branch _ _ => none

namespace Tree

variable {α : Type}

/-- The literal that the top node is, if it is one. -/
def literal? : Tree α → Option Literal
  | literal _ l => some l
  | branch _ _ _ => none

/-- What the top node shows. -/
def entry (t : Tree α) : Entry α :=
  ⟨t.tag, t.kind, t.literal?, t.children.map tag⟩

/-- A replacement with the same top keeps the top of the tree. -/
private theorem tag_replaceAt {t p new : Tree α} {place : List Nat}
    (hp : t.subtreeAt? place = some p) (htag : new.tag = p.tag) :
    (replaceAt new t place).tag = t.tag := by
  cases place with
  | nil =>
    obtain rfl := Option.some.inj hp
    rwa [replaceAt_nil]
  | cons i place => cases t <;> rfl

/-- A replacement below a child keeps what the top of the tree is known by. -/
theorem entry_replaceAt_cons {t p new : Tree α} {i : Nat} {place : List Nat}
    (hp : t.subtreeAt? (i :: place) = some p) (htag : new.tag = p.tag) :
    (replaceAt new t (i :: place)).entry = t.entry := by
  obtain ⟨c, hget, hc⟩ := subtreeAt?_cons_eq_some_iff.mp hp
  have hchildren : (replaceAt new t (i :: place)).children.map tag = t.children.map tag := by
    rw [children_replaceAt_cons]
    refine List.ext_getElem? fun j => ?_
    rw [List.getElem?_map, List.getElem?_map, List.getElem?_modify]
    by_cases hj : i = j
    · subst hj
      simp [hget, tag_replaceAt hc htag]
    · simp [hj]
  rw [entry, hchildren]
  cases t <;> rfl

/-- A node with a child put elsewhere lists the child's tag elsewhere. -/
theorem entry_withMoved {t c : Tree α} {source target : Nat}
    (hc : t.children[source]? = some c) :
    (t.withMoved source target).entry =
      { t.entry with children := (t.entry.children.eraseIdx source).insertIdx target c.tag } := by
  obtain ⟨hlt, rfl⟩ := List.getElem?_eq_some_iff.mp hc
  have hchildren : (t.withMoved source target).children.map tag =
      ((t.children.map tag).eraseIdx source).insertIdx target t.children[source].tag := by
    rw [children_withMoved, moveElement_eq hlt, List.map_insertIdx, List.eraseIdx_map]
  rw [entry, hchildren]
  cases t <;> rfl

/-- If a subtree gives way to one with the same top and the same children in another order, every
other node shows afterwards what it did before. -/
theorem exists_entry_eq_replaceAt {t p new u : Tree α} {place other : List Nat}
    (hp : t.subtreeAt? place = some p) (htag : new.tag = p.tag)
    (hchildren : new.children.Perm p.children) (hu : t.subtreeAt? other = some u)
    (hne : u.tag ≠ p.tag) :
    ∃ other' u', (replaceAt new t place).subtreeAt? other' = some u' ∧ u'.entry = u.entry := by
  induction place generalizing t other with
  | nil =>
    obtain rfl := Option.some.inj hp
    rw [replaceAt_nil]
    cases other with
    | nil =>
      obtain rfl := Option.some.inj hu
      exact absurd rfl hne
    | cons k other =>
      obtain ⟨c, hget, hc⟩ := subtreeAt?_cons_eq_some_iff.mp hu
      obtain ⟨k', hget'⟩ :=
        List.mem_iff_getElem?.mp (hchildren.mem_iff.mpr (List.mem_of_getElem? hget))
      exact ⟨k' :: other, u, subtreeAt?_cons_eq_some_iff.mpr ⟨c, hget', hc⟩, rfl⟩
  | cons i place ih =>
    cases other with
    | nil =>
      obtain rfl := Option.some.inj hu
      exact ⟨[], _, subtreeAt?_nil _, entry_replaceAt_cons hp htag⟩
    | cons k other =>
      obtain ⟨c, hget, hc⟩ := subtreeAt?_cons_eq_some_iff.mp hp
      obtain ⟨d, hgetd, hd⟩ := subtreeAt?_cons_eq_some_iff.mp hu
      by_cases hk : i = k
      · subst hk
        obtain rfl := Option.some.inj (hget.symm.trans hgetd)
        obtain ⟨other', u', hu', hentry⟩ := ih hc hd
        refine ⟨i :: other', u', subtreeAt?_cons_eq_some_iff.mpr ⟨_, ?_, hu'⟩, hentry⟩
        rw [children_replaceAt_cons, List.getElem?_modify_eq, hget]
        rfl
      · refine ⟨k :: other, u, subtreeAt?_cons_eq_some_iff.mpr ⟨d, ?_, hd⟩, rfl⟩
        rw [children_replaceAt_cons, List.getElem?_modify_ne _ _ hk, hgetd]

end Tree

namespace Store

/-- What a node shows, with handles for the nodes. -/
def entry (s : Store) (id : NodeId) : Entry (Option Handle) :=
  ⟨s.handle id, s.kind id, (s.cell id).content.literal?, (s.children id).map s.handle⟩

/-- The top node of an owned tree shows what the tree shows. -/
theorem Owns.entry_eq {s : Store} {t : Tree NodeId} (h : s.Owns t) :
    s.entry t.tag = (t.map s.handle).entry := by
  have hliteral : (s.cell t.tag).content.literal? = (t.map s.handle).literal? := by
    cases h.holds with
    | literal hid hcontent =>
      rw [Tree.tag, hcontent, Tree.map_literal]
      rfl
    | branch hid hcontent hcs =>
      rw [Tree.tag, hcontent, Tree.map_branch]
      rfl
  rw [entry, Tree.entry, Tree.tag_map, Tree.kind_map, Tree.children_map, h.holds.kind_eq,
    h.holds.children_tag, hliteral, List.map_map, List.map_map]
  simp only [Function.comp_def, Tree.tag_map]

end Store

end Rearrange
