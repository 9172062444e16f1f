import Rearrange.Proofs.Store.Plant
import Rearrange.Proofs.Tree.Datum

namespace Rearrange.Store

/-- What making the nodes of a tree comes to: the nodes are new and have no handles, each of them
stands in one place and remembers the node that lists it, the top none, and nothing that was there
has changed. -/
structure Gains (s s' : Store) (top : NodeId) : Prop where
  nodup : (s'.walk top).Nodup
  linked : ∀ id ∈ s'.walk top, ∀ c ∈ s'.children id, s'.parent c = some id
  parent_top : s'.parent top = none
  handle_eq : ∀ id ∈ s'.walk top, s'.handle id = none
  fresh : ∀ id ∈ s'.walk top, s.size ≤ id
  cell_eq : ∀ id, id < s.size → s'.cell id = s.cell id

/-- The node of an expression is made in a store as the expression is read: if reading fails, making
fails in the same way, and otherwise the store has grown by that expression, without handles. -/
def Follows (s : Store) (made : Except DatumError (NodeId × Store)) :
    Except DatumError Expr → Prop
  | .error e => made = .error e
  | .ok e => ∃ t s', made = .ok (t.tag, s') ∧ s.Grows s' [t] ∧
      t.map s'.handle = e.map fun _ => none

/-- The nodes of several expressions are made as the expressions are read. -/
def FollowsAll (s : Store) (made : Except DatumError (List NodeId × Store)) :
    Except DatumError (List Expr) → Prop
  | .error e => made = .error e
  | .ok es => ∃ ts s', made = .ok (ts.map Tree.tag, s') ∧ s.Grows s' ts ∧
      ts.map (Tree.map s'.handle) = es.map (Tree.map fun _ => none)

variable {s s' : Store} {top : NodeId}

theorem followsAll_nil (s : Store) : s.FollowsAll (.ok ([], s)) (.ok []) :=
  ⟨[], s, rfl, grows_nil s, rfl⟩

/-- A node that is made of new nodes is the expression of their expressions. -/
theorem follows_make {ts : List (Tree NodeId)} {es : List Expr} (h : s.Grows s' ts)
    (hlabels : ts.map (Tree.map s'.handle) = es.map (Tree.map fun _ => none)) (kind : Kind)
    (given : Datum) :
    s.Follows ((s'.make kind given (ts.map Tree.tag) none).mapError .fragment)
      ((Tree.assemble kind given es).mapError .fragment) := by
  have hlength : ts.length = es.length := by simpa using congrArg List.length hlabels
  have hempty : (ts.map Tree.tag).isEmpty = es.isEmpty := by
    cases ts <;> cases es <;> simp_all
  rw [Store.make, Tree.assemble, hempty]
  cases hhead : kind.head given es.isEmpty with
  | error e => exact rfl
  | ok head =>
    cases head with
    | literal l =>
      obtain rfl : ts = [] := by
        cases kind with
        | literal =>
          obtain ⟨-, -, hnone, -⟩ := Kind.head_literal_eq_ok_iff.mp hhead
          rwa [List.isEmpty_iff, ← List.length_eq_zero_iff, ← hlength,
            List.length_eq_zero_iff] at hnone
        | branch shape => cases (Kind.head_branch_eq_ok_iff.mp hhead).2
      exact ⟨.literal s'.size l, _, rfl, h.append (grows_plant s' (.literal none l)),
        map_handle_plant s' (.literal none l)⟩
    | branch shape =>
      refine ⟨.branch s'.size shape ts, (s'.makeBranch shape (ts.map Tree.tag) none).2, rfl,
        h.makeBranch shape none, ?_⟩
      rw [map_handle_makeBranch fun t ht => (h.owns t ht).holds, hlabels, Tree.map_branch]

mutual
/-- Data are made into nodes as they are read, the children of a node before the node. -/
theorem follows_ofDatum (s : Store) : (d : Datum) → s.Follows (s.ofDatum d) (Tree.ofDatum d)
  | .object fields => by
    rw [ofDatum, Tree.ofDatum]
    cases (Kind.ofFields fields).mapError DatumError.fragment with
    | error e => exact rfl
    | ok kind =>
      have hchildren := followsAll_ofChildrenField s fields
      cases hread : Tree.ofChildrenField fields with
      | error e =>
        rw [hread, FollowsAll] at hchildren
        rw [hchildren]
        exact rfl
      | ok es =>
        rw [hread] at hchildren
        obtain ⟨ts, s', hmade, hgrows, hlabels⟩ := hchildren
        rw [hmade]
        exact follows_make hgrows hlabels kind _
  | .null => rfl
  | .bool _ => rfl
  | .integer _ => rfl
  | .real _ => rfl
  | .text _ => rfl
  | .array _ => rfl

/-- Children are made in the store from the field they are read from. -/
theorem followsAll_ofChildrenField (s : Store) : (fields : List (String × Datum)) →
    s.FollowsAll (s.ofChildrenField fields) (Tree.ofChildrenField fields)
  | [] => followsAll_nil s
  | (name, value) :: rest => by
    rw [ofChildrenField, Tree.ofChildrenField]
    split
    · exact followsAll_ofChildren s value
    · exact followsAll_ofChildrenField s rest

/-- Children are made in the store when they are given as a list. -/
theorem followsAll_ofChildren (s : Store) : (d : Datum) →
    s.FollowsAll (s.ofChildren d) (Tree.ofChildren d)
  | .array items => followsAll_ofItems s items
  | .object fields => by
    rw [ofChildren, Tree.ofChildren]
    split
    · exact followsAll_nil s
    · exact rfl
  | .text given => by
    rw [ofChildren, Tree.ofChildren]
    split
    · exact followsAll_nil s
    · exact rfl
  | .null => rfl
  | .bool _ => rfl
  | .integer _ => rfl
  | .real _ => rfl

/-- Children are made in the store from left to right, up to the first that cannot be read. -/
theorem followsAll_ofItems (s : Store) : (items : List Datum) →
    s.FollowsAll (s.ofItems items) (Tree.ofItems items)
  | [] => followsAll_nil s
  | item :: items => by
    have hfirst := follows_ofDatum s item
    rw [ofItems, Tree.ofItems]
    cases hread : Tree.ofDatum item with
    | error e =>
      rw [hread, Follows] at hfirst
      rw [hfirst]
      exact rfl
    | ok e =>
      rw [hread] at hfirst
      obtain ⟨t, s', hmade, hgrows, hlabel⟩ := hfirst
      -- The others are made in the store that the first has left, whose growth they add to.
      have hothers := followsAll_ofItems s' items
      rw [hmade]
      change s.FollowsAll (s'.ofItems items >>= fun made => .ok (t.tag :: made.1, made.2)) _
      cases hreads : Tree.ofItems items with
      | error e =>
        rw [hreads, FollowsAll] at hothers
        rw [hothers]
        exact rfl
      | ok es =>
        rw [hreads] at hothers
        obtain ⟨ts, s'', hmades, hgrows', hlabels⟩ := hothers
        rw [hmades]
        refine ⟨t :: ts, s'', rfl, hgrows.append hgrows', ?_⟩
        have ht := (hgrows.owns t List.mem_cons_self).holds
        rw [List.map_cons, hgrows'.toWithin.map_handle_eq ht, hlabel, hlabels, List.map_cons]
end

/-- A store that has grown by one tree without handles has gained the nodes of the tree. -/
theorem Grows.gains {t : Tree NodeId} {e : Expr} (h : s.Grows s' [t])
    (hlabel : t.map s'.handle = e.map fun _ => none) : s.Gains s' t.tag := by
  have howns := h.owns t List.mem_cons_self
  have hfresh := h.fresh
  rw [List.flatMap_singleton] at hfresh
  constructor
  · exact howns.walk_eq ▸ howns.nodup
  · exact howns.walk_eq ▸ howns.linked
  · exact h.parent_eq t List.mem_cons_self
  · intro id hid
    have htags := congrArg Tree.tags hlabel
    rw [Tree.tags_map, Tree.tags_map] at htags
    rw [howns.walk_eq] at hid
    have hhandle := htags ▸ List.mem_map_of_mem hid
    obtain ⟨-, -, hnone⟩ := List.mem_map.mp hhandle
    exact hnone.symm
  · exact howns.walk_eq ▸ hfresh
  · exact h.cell_eq

/-- Data are made into nodes exactly if they are read, and the nodes show what is read. -/
theorem exists_ofDatum_of_ok {d : Datum} {e : Expr} (hread : Tree.ofDatum d = .ok e) (s : Store) :
    ∃ top s', s.ofDatum d = .ok (top, s') ∧ s'.expr top = e ∧ s.Gains s' top := by
  have hmade := follows_ofDatum s d
  rw [hread] at hmade
  obtain ⟨t, s', hmade, hgrows, hlabel⟩ := hmade
  refine ⟨t.tag, s', hmade, ?_, hgrows.gains hlabel⟩
  have herase := congrArg Tree.erase hlabel
  rw [Tree.erase_map, Tree.erase_map, Tree.erase_eq] at herase
  rw [(hgrows.owns t List.mem_cons_self).expr_eq, herase]

/-- The data of an expression are made into nodes that show it. -/
theorem exists_ofDatum_toDatum (s : Store) (e : Expr) :
    ∃ top s', s.ofDatum e.toDatum = .ok (top, s') ∧ s'.expr top = e ∧ s.Gains s' top := by
  have hread := Tree.ofDatum_toDatum e
  rw [Tree.erase_eq] at hread
  exact exists_ofDatum_of_ok hread s

/-- Data that a node is made from can be read as a tree. -/
theorem exists_read_of_ofDatum {d : Datum} (hmade : s.ofDatum d = .ok (top, s')) :
    ∃ e, Tree.ofDatum d = .ok e := by
  have hfollows := follows_ofDatum s d
  cases hread : Tree.ofDatum d with
  | ok e => exact ⟨e, rfl⟩
  | error e =>
    rw [hread] at hfollows
    cases hmade.symm.trans hfollows

/-- The data of a tree are read as that tree. Data are read exactly if they describe a tree, and
then the tree that is read is written as what is left of them; other data are refused, because
something is of the wrong type or because a node cannot be made. The nodes of a tree that is read
are new, remember the nodes that list them, and have no handles. -/
theorem ofDatum_reads_back (s : Store) :
    (∀ e : Expr, ∃ top s', s.ofDatum e.toDatum = .ok (top, s') ∧ s'.expr top = e ∧
      s.Gains s' top) ∧
    ∀ d : Datum,
      ((∃ top s', s.ofDatum d = .ok (top, s')) ↔ d.IsTree) ∧
      (∀ top s', s.ofDatum d = .ok (top, s') →
        (s'.expr top).toDatum = d.reduced ∧ s.Gains s' top) ∧
      (¬ d.IsTree →
        s.ofDatum d = .error .wrongType ∨ ∃ e, s.ofDatum d = .error (.fragment e)) := by
  have hreads : ∀ d : Datum, (∃ top s', s.ofDatum d = .ok (top, s')) ↔ d.IsTree := by
    intro d
    constructor
    · rintro ⟨top, s', hmade⟩
      obtain ⟨e, hread⟩ := exists_read_of_ofDatum hmade
      exact (Tree.isTree_and_toDatum_eq hread).1
    · intro htree
      obtain ⟨e, hread⟩ := Tree.exists_ofDatum htree
      obtain ⟨top, s', hmade, -⟩ := exists_ofDatum_of_ok hread s
      exact ⟨top, s', hmade⟩
  refine ⟨s.exists_ofDatum_toDatum, fun d => ⟨hreads d, fun top s' hmade => ?_, fun hnot => ?_⟩⟩
  · obtain ⟨e, hread⟩ := exists_read_of_ofDatum hmade
    obtain ⟨top', s'', hmade', hexpr, hgains⟩ := exists_ofDatum_of_ok hread s
    obtain ⟨rfl, rfl⟩ := Prod.mk.inj (Except.ok.inj (hmade.symm.trans hmade'))
    exact ⟨hexpr ▸ (Tree.isTree_and_toDatum_eq hread).2, hgains⟩
  · cases hd : s.ofDatum d with
    | ok read => exact absurd ((hreads d).mp ⟨read.1, read.2, hd⟩) hnot
    | error e =>
      cases e with
      | wrongType => exact .inl rfl
      | fragment e => exact .inr ⟨e, rfl⟩

/-- A sum is read that has fields of its own beside the three, a group without its children, and the
text of its literal in front of the kind; a literal with a child is refused. -/
theorem ofDatum_reads_back_odd_fields :
    let seven : Datum := .object [("literal", .text "7"), ("kind", .text "LITERAL")]
    let group : Datum := .object [("kind", .text "PARENTHETICAL"), ("literal", .null),
      ("children", .object [])]
    let sum : Datum := .object [("handle", .integer 3), ("children", .array [seven, group]),
      ("kind", .text "ADDITIVE")]
    let parent : Datum := .object [("kind", .text "LITERAL"), ("literal", .text "x"),
      ("children", .array [sum])]
    sum.IsTree ∧ ¬ parent.IsTree ∧
      (∃ top s', (∅ : Store).ofDatum sum = .ok (top, s') ∧ (s'.expr top).toDatum = sum.reduced ∧
        (∅ : Store).Gains s' top) ∧
      ((∅ : Store).ofDatum parent = .error .wrongType ∨
        ∃ e, (∅ : Store).ofDatum parent = .error (.fragment e)) := by
  intro seven group sum parent
  have hseven : seven.IsTree := .literal rfl rfl (isLiteralText_iff_derives.mp rfl) rfl
  have hgroup : group.IsTree := .branch rfl (by decide) (.inr rfl) rfl (by simp)
  have hsum : sum.IsTree := .branch rfl (by decide) (.inl rfl) rfl (by simp [hseven, hgroup])
  have hparent : ¬ parent.IsTree := by
    change ¬ Datum.IsTree (.object _)
    intro h
    cases h with
    | literal hkind htext hs hchildren => cases hchildren
    | branch hkind hname htext hchildren hitems => obtain h | h := htext <;> cases h
  obtain ⟨top, s', hread⟩ := ((ofDatum_reads_back ∅).2 sum).1.mpr hsum
  exact ⟨hsum, hparent, ⟨top, s', hread, ((ofDatum_reads_back ∅).2 sum).2.1 top s' hread⟩,
    ((ofDatum_reads_back ∅).2 parent).2.2 hparent⟩

end Rearrange.Store
