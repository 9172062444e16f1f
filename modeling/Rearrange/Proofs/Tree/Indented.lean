import Mathlib.Data.List.Perm.Basic
import Rearrange.Placement
import Rearrange.Proofs.Tree.Characters

namespace Rearrange

/-- The text does not start with a line of the given depth or more. -/
def IsShallow (depth : Nat) (rest : List Char) : Prop :=
  ¬ List.replicate depth '\t' <+: rest

private theorem isShallow_nil (depth : Nat) : IsShallow (depth + 1) [] := by
  rw [IsShallow, List.prefix_nil, List.replicate_succ]
  exact List.cons_ne_nil _ _

theorem IsShallow.succ {depth : Nat} {rest : List Char} (h : IsShallow depth rest) :
    IsShallow (depth + 1) rest := by
  intro hdeeper
  rw [List.replicate_succ'] at hdeeper
  exact h ((List.prefix_append _ _).trans hdeeper)

/-- A text can be told from what follows the first newline. -/
private theorem append_newline_inj {line line' rest rest' : List Char} (hline : '\n' ∉ line)
    (hline' : '\n' ∉ line') (h : line ++ '\n' :: rest = line' ++ '\n' :: rest') :
    line = line' ∧ rest = rest' := by
  induction line generalizing line' with
  | nil =>
    cases line' with
    | nil => exact ⟨rfl, (List.cons.inj h).2⟩
    | cons c cs => exact absurd ((List.cons.inj h).1 ▸ List.mem_cons_self) hline'
  | cons c cs ih =>
    cases line' with
    | nil => exact absurd ((List.cons.inj h).1 ▸ List.mem_cons_self) hline
    | cons d ds =>
      obtain ⟨rfl, hafter⟩ := List.cons.inj h
      rw [List.mem_cons, not_or] at hline hline'
      obtain ⟨rfl, hrest⟩ := ih hline.2 hline'.2 hafter
      exact ⟨rfl, hrest⟩

theorem Kind.name_injective : Function.Injective Kind.name := fun k k' h =>
  Option.some.inj (by rw [← Kind.ofName?_name k, ← Kind.ofName?_name k', h])

namespace Tree

variable {α β : Type} {t : Tree α} {u : Tree β}

/-- A marker is written in characters of an expression. -/
theorem isExpressionChar_of_mem_marker {c : Char} (hc : c ∈ t.marker) :
    isExpressionChar c = true := by
  cases t with
  | literal a l => exact l.isExpressionChar_of_mem hc
  | branch a s cs =>
    cases s with
    | group =>
      obtain rfl | rfl : c = '(' ∨ c = ')' := by simpa [marker] using hc
      · rfl
      · rfl
    | chain op =>
      obtain rfl := List.mem_singleton.mp hc
      exact op.isExpressionChar_symbol

/-- A marker does not end its line. -/
private theorem newline_notMem_marker (t : Tree α) : '\n' ∉ t.marker := fun h =>
  absurd (isExpressionChar_of_mem_marker h) (by decide)

/-- A marker cannot be read as deeper indentation. -/
private theorem tab_notMem_marker (t : Tree α) : '\t' ∉ t.marker := fun h =>
  absurd (isExpressionChar_of_mem_marker h) (by decide)

/-- No literal is written as the marker of a branch. -/
theorem text_ne_marker_branch (l : Literal) (a : α) (s : Shape) (cs : List (Tree α)) :
    l.text ≠ (branch a s cs).marker := by
  intro h
  obtain ⟨c, hc, hsign⟩ : ∃ c ∈ l.text, c = '(' ∨ c = '+' ∨ c = '*' := by
    rw [h]
    rcases s with _ | _ | _
    · exact ⟨'(', by simp [marker], .inl rfl⟩
    · exact ⟨'+', by simp [marker, Operator.symbol], .inr (.inl rfl)⟩
    · exact ⟨'*', by simp [marker, Operator.symbol], .inr (.inr rfl)⟩
  have hplain := l.isDigit_or_isLower_of_mem hc
  obtain rfl | rfl | rfl := hsign <;> exact absurd hplain (by decide)

/-- The shape of a branch can be read off its marker. -/
theorem shape_eq_of_marker_eq {a : α} {b : β} {s r : Shape} {cs : List (Tree α)}
    {ds : List (Tree β)} (h : (branch a s cs).marker = (branch b r ds).marker) : s = r := by
  cases s with
  | group =>
    cases r with
    | group => rfl
    | chain op => simp [marker] at h
  | chain op =>
    cases r with
    | group => simp [marker] at h
    | chain op' =>
      have hsymbol : op.symbol = op'.symbol := (List.cons.inj h).1
      have hop := Operator.ofChar?_eq_some_iff.mpr hsymbol
      rw [Operator.ofChar?_eq_some_iff.mpr rfl] at hop
      exact congrArg Shape.chain (Option.some.inj hop)

/-- The sign says what the top node is, so the tree is known with its children. -/
theorem erase_eq_of_marker_eq (hmarker : t.marker = u.marker)
    (hchildren : t.children.map erase = u.children.map erase) : t.erase = u.erase := by
  cases t with
  | literal a l =>
    cases u with
    | literal b m =>
      obtain ⟨text, _⟩ := l
      obtain ⟨text', _⟩ := m
      obtain rfl : text = text' := hmarker
      rfl
    | branch b r ds => exact absurd hmarker (text_ne_marker_branch l b r ds)
  | branch a s cs =>
    cases u with
    | literal b m => exact absurd hmarker.symm (text_ne_marker_branch m a s cs)
    | branch b r ds =>
      obtain rfl := shape_eq_of_marker_eq hmarker
      rw [erase_branch, erase_branch]
      exact congrArg (branch () s) hchildren

/-- The line of a node, and after it the lines below the node. -/
theorem indented_natCast (t : Tree α) (depth : Nat) :
    t.indented depth = List.replicate depth '\t' ++
      (t.marker ++ '\n' :: t.children.flatMap (indented (depth + 1 : Nat))) := by
  cases t with
  | literal a l => simp [indented, marker, children]
  | branch a s cs => simp [indented, children, indentedAll_eq_flatMap]

/-- The lines of a tree start with as many tabs as the tree is deep. -/
theorem replicate_prefix_indented (t : Tree α) (depth : Nat) (rest : List Char) :
    List.replicate depth '\t' <+: t.indented depth ++ rest := by
  rw [indented_natCast, List.append_assoc]
  exact List.prefix_append _ _

/-- The lines of a tree may follow a line one level deeper. -/
theorem isShallow_indented (t : Tree α) (depth : Nat) (rest : List Char) :
    IsShallow (depth + 1) (t.indented depth ++ rest) := by
  intro h
  rw [indented_natCast, List.replicate_succ', List.append_assoc, List.prefix_append_right_inj,
    List.append_assoc] at h
  cases hmarker : t.marker with
  | nil => simp [hmarker] at h
  | cons c cs =>
    obtain rfl : '\t' = c := by simpa [hmarker] using h
    exact tab_notMem_marker t (hmarker ▸ List.mem_cons_self)

/-- Where trees are written one after the other, each can be told from what follows if each by
itself can. -/
theorem flatMap_indented_append_inj {cs : List (Tree α)} {ds : List (Tree β)} {depth : Nat}
    {rest rest' : List Char}
    (hcs : ∀ c ∈ cs, ∀ (d : Tree β) (rest rest' : List Char), IsShallow (depth + 1) rest →
      IsShallow (depth + 1) rest' → c.indented depth ++ rest = d.indented depth ++ rest' →
        c.erase = d.erase ∧ rest = rest')
    (hrest : IsShallow depth rest) (hrest' : IsShallow depth rest')
    (h : cs.flatMap (indented depth) ++ rest = ds.flatMap (indented depth) ++ rest') :
    cs.map erase = ds.map erase ∧ rest = rest' := by
  -- What follows a tree is the next tree, which is no deeper, or the rest.
  have hfollows : ∀ {γ : Type} (es : List (Tree γ)) {rest : List Char}, IsShallow depth rest →
      IsShallow (depth + 1) (es.flatMap (indented depth) ++ rest) := by
    intro γ es rest hrest
    cases es with
    | nil => exact hrest.succ
    | cons e es =>
      rw [List.flatMap_cons, List.append_assoc]
      exact isShallow_indented e depth _
  induction cs generalizing ds with
  | nil =>
    cases ds with
    | nil => exact ⟨rfl, h⟩
    | cons d ds =>
      rw [List.flatMap_nil, List.nil_append, List.flatMap_cons, List.append_assoc] at h
      exact absurd (h ▸ replicate_prefix_indented d depth _) hrest
  | cons c cs ih =>
    cases ds with
    | nil =>
      rw [List.flatMap_nil, List.nil_append, List.flatMap_cons, List.append_assoc] at h
      exact absurd (h ▸ replicate_prefix_indented c depth _) hrest'
    | cons d ds =>
      obtain ⟨hc, hcs⟩ := List.forall_mem_cons.mp hcs
      rw [List.flatMap_cons, List.flatMap_cons, List.append_assoc, List.append_assoc] at h
      obtain ⟨hcd, h⟩ := hc d _ _ (hfollows cs hrest) (hfollows ds hrest') h
      obtain ⟨hmap, hrests⟩ := ih hcs h
      exact ⟨by rw [List.map_cons, List.map_cons, hcd, hmap], hrests⟩

/-- If two trees start alike, so do their signs, and what comes below them. -/
theorem marker_eq_of_indented_append_eq {depth : Nat} {rest rest' : List Char}
    (h : t.indented depth ++ rest = u.indented depth ++ rest') :
    t.marker = u.marker ∧ t.children.flatMap (indented (depth + 1 : Nat)) ++ rest =
      u.children.flatMap (indented (depth + 1 : Nat)) ++ rest' := by
  rw [indented_natCast, indented_natCast] at h
  simp only [List.append_assoc, List.cons_append, List.append_cancel_left_eq] at h
  exact append_newline_inj (newline_notMem_marker t) (newline_notMem_marker u) h

/-- A tree can be told from what follows its lines, if that is no deeper than the tree. -/
theorem indented_append_inj {depth : Nat} {rest rest' : List Char}
    (hrest : IsShallow (depth + 1) rest) (hrest' : IsShallow (depth + 1) rest')
    (h : t.indented depth ++ rest = u.indented depth ++ rest') :
    t.erase = u.erase ∧ rest = rest' := by
  induction t generalizing u depth rest rest' with
  | literal a l =>
    obtain ⟨hmarker, hbelow⟩ := marker_eq_of_indented_append_eq h
    obtain ⟨hchildren, hrests⟩ := flatMap_indented_append_inj
      (fun c hc => absurd hc List.not_mem_nil) hrest hrest' hbelow
    exact ⟨erase_eq_of_marker_eq hmarker hchildren, hrests⟩
  | branch a s cs ih =>
    obtain ⟨hmarker, hbelow⟩ := marker_eq_of_indented_append_eq h
    obtain ⟨hchildren, hrests⟩ := flatMap_indented_append_inj
      (fun c hc d rest rest' hr hr' => ih c hc hr hr') hrest hrest' hbelow
    exact ⟨erase_eq_of_marker_eq hmarker hchildren, hrests⟩

/-- At one depth, the same lines are written for the same tree and for no other. -/
theorem indented_eq_indented_iff (t : Tree α) (u : Tree β) (depth : Nat) :
    t.indented depth = u.indented depth ↔ t.erase = u.erase := by
  constructor
  · intro h
    exact (indented_append_inj (isShallow_nil depth) (isShallow_nil depth)
      (congrArg (· ++ []) h)).1
  · intro h
    rw [← indented_map (fun _ => ()) t, ← indented_map (fun _ => ()) u]
    exact congrArg (indented depth) h

theorem same_toDatum_literal {a : α} {b : β} {l m : Literal} :
    (literal a l).toDatum.same (literal b m).toDatum = true ↔ l = m := by
  have htexts : String.ofList l.text = String.ofList m.text ↔ l = m := by
    rw [String.ofList_inj, Literal.mk.injEq]
  simp [toDatum, Datum.same, Datum.sameFields, Datum.sameItems, List.lookup_cons, htexts]

theorem same_toDatum_branch {a : α} {b : β} {s r : Shape} {cs : List (Tree α)}
    {ds : List (Tree β)} :
    (branch a s cs).toDatum.same (branch b r ds).toDatum = true ↔
      s = r ∧ Datum.sameItems (cs.map toDatum) (ds.map toDatum) = true := by
  have hnames : (Kind.branch s).name = (Kind.branch r).name ↔ s = r := by
    rw [Kind.name_injective.eq_iff, Kind.branch.injEq]
  simp [toDatum, Datum.same, Datum.sameFields, List.lookup_cons, hnames, toDatumAll_eq_map]

/-- Two trees are the same if and only if their data are the same, field by field. -/
theorem same_toDatum_iff : t.toDatum.same u.toDatum = true ↔ t.erase = u.erase := by
  induction t generalizing u with
  | literal a l =>
    cases u with
    | literal b m => simp [same_toDatum_literal]
    | branch b r ds => simp [toDatum, Datum.same]
  | branch a s cs ih =>
    cases u with
    | literal b m => simp [toDatum, Datum.same]
    | branch b r ds =>
      have hitems : Datum.sameItems (cs.map toDatum) (ds.map toDatum) = true ↔
          cs.map erase = ds.map erase := by
        induction cs generalizing ds with
        | nil => cases ds <;> simp [Datum.sameItems]
        | cons c cs ihcs =>
          obtain ⟨hc, hcs⟩ := List.forall_mem_cons.mp ih
          cases ds with
          | nil => simp [Datum.sameItems]
          | cons d ds => simp [Datum.sameItems, hc, ihcs hcs]
      rw [same_toDatum_branch, hitems, erase_branch, erase_branch, branch.injEq]
      simp

/-- The data of a tree do not depend on tags. -/
theorem toDatum_map (f : α → β) (t : Tree α) : (t.map f).toDatum = t.toDatum := by
  induction t with
  | literal a l => rw [map_literal, toDatum, toDatum]
  | branch a s cs ih =>
    have hsame : cs.map (toDatum ∘ map f) = cs.map toDatum := List.map_congr_left ih
    rw [map_branch, toDatum, toDatum, toDatumAll_eq_map, toDatumAll_eq_map, List.map_map, hsame]

/-- Trees with the same data are the same but for their tags. -/
theorem toDatum_eq_toDatum_iff : t.toDatum = u.toDatum ↔ t.erase = u.erase := by
  constructor
  · intro h
    rw [← same_toDatum_iff, ← h, same_toDatum_iff]
  · intro h
    rw [← toDatum_map (fun _ => ()) t, ← toDatum_map (fun _ => ()) u]
    exact congrArg toDatum h

/-- Lists of trees have the same texts up to order when they are the same trees up to order. -/
theorem map_indented_perm_iff (ts : List (Tree α)) (us : List (Tree β)) (depth : Nat) :
    (ts.map (indented depth)).Perm (us.map (indented depth)) ↔
      (ts.map erase).Perm (us.map erase) := by
  have hinjective : Function.Injective fun e : Expr => e.indented depth := fun e e' h => by
    rwa [indented_eq_indented_iff, erase_eq, erase_eq] at h
  have hlines : ∀ {γ : Type} (vs : List (Tree γ)),
      vs.map (indented depth) = (vs.map erase).map (indented depth) := fun vs => by
    rw [List.map_map]
    exact List.map_congr_left fun v _ => (indented_map _ v depth).symm
  rw [hlines ts, hlines us]
  exact List.map_perm_map_iff hinjective

end Tree

namespace Store

/-- A child is matched by its indented text exactly if it is the tree that has that text. -/
theorem childMatching_indented (s : Store) (parent : NodeId) (e : Expr) (index : Option Int) :
    s.childMatching parent (e.indented 0) index =
      match index with
      | none => (s.children parent).findIdx? fun c => s.expr c = e
      | some i => (elementAt? (s.children parent) i).bind fun c =>
          if s.expr c = e then some i.toNat else none := by
  have hsame : ∀ c, ((s.expr c).indented 0 == e.indented 0) = decide (s.expr c = e) := fun c => by
    rw [Bool.eq_iff_iff, beq_iff_eq, decide_eq_true_iff]
    simpa using Tree.indented_eq_indented_iff (s.expr c) e 0
  cases index with
  | none => simp only [childMatching, hsame]
  | some i =>
    simp only [childMatching, hsame, decide_eq_true_iff]
    cases elementAt? (s.children parent) i <;> rfl

/-- The children of a node and of a placement have the same indented texts up to order exactly if
they are the same trees up to order. -/
theorem splice_eq (s : Store) (target placement : NodeId) :
    s.splice target placement =
      if s.kind target ≠ s.kind placement then
        { result := .error (.kinds (s.kind placement) (s.kind target)), store := s }
      else if ((s.children target).map s.expr).Perm ((s.children placement).map s.expr) then
        { result := .ok target
          store := (s.copyAll (s.children placement)).2.relink target
            (s.copyAll (s.children placement)).1 }
      else { result := .error .children, store := s } := by
  have hbare (ids : List NodeId) : (ids.map s.expr).map Tree.erase = ids.map s.expr := by
    rw [List.map_map]
    exact List.map_congr_left fun id _ => Tree.erase_eq _
  have hlines : ((s.children target).map fun c => (s.expr c).indented 0).Perm
      ((s.children placement).map fun c => (s.expr c).indented 0) ↔
        ((s.children target).map s.expr).Perm ((s.children placement).map s.expr) := by
    have hindented := Tree.map_indented_perm_iff ((s.children target).map s.expr)
      ((s.children placement).map s.expr) 0
    rwa [hbare, hbare, List.map_map, List.map_map] at hindented
  simp only [splice, List.isPerm_iff, hlines]

/-- A placement is spliced exactly if it has the kind of the node and, up to order, its children. -/
theorem result_splice_eq_ok_iff {s : Store} {target placement : NodeId} :
    (s.splice target placement).result = .ok target ↔ s.kind target = s.kind placement ∧
      ((s.children target).map s.expr).Perm ((s.children placement).map s.expr) := by
  rw [splice_eq]
  by_cases hkind : s.kind target = s.kind placement
  · by_cases hperm : ((s.children target).map s.expr).Perm ((s.children placement).map s.expr)
    · simp [hkind, hperm]
    · simp [hkind, hperm]
  · simp [hkind]

end Store

/-- At whatever depth they start, the indented texts of two trees are the same if and only if the
trees are, and if and only if their data are, compared field by field or outright. To look for a
child by its indented text is therefore to look for the tree itself, and a placement whose children
have the indented texts of a node's children has the same children, up to order. -/
theorem Tree.same_indented_iff_same_tree {α β : Type} (t : Tree α) (u : Tree β) (depth : Nat) :
    (t.indented depth = u.indented depth ↔ t.erase = u.erase) ∧
      (t.erase = u.erase ↔ t.toDatum.same u.toDatum = true) ∧
      (t.erase = u.erase ↔ t.toDatum = u.toDatum) ∧
      (∀ (s : Store) (parent : NodeId) (index : Option Int),
        s.childMatching parent (t.indented 0) index =
          match index with
          | none => (s.children parent).findIdx? fun c => s.expr c = t.erase
          | some i => (elementAt? (s.children parent) i).bind fun c =>
              if s.expr c = t.erase then some i.toNat else none) ∧
      ∀ (s : Store) (target placement : NodeId),
        (s.splice target placement).result = .ok target ↔ s.kind target = s.kind placement ∧
          ((s.children target).map s.expr).Perm ((s.children placement).map s.expr) := by
  refine ⟨indented_eq_indented_iff t u depth, same_toDatum_iff.symm, toDatum_eq_toDatum_iff.symm,
    fun s parent index => ?_, fun s target placement => Store.result_splice_eq_ok_iff⟩
  have htext : t.indented 0 = t.erase.indented 0 := (indented_map _ t 0).symm
  rw [htext]
  exact s.childMatching_indented parent t.erase index

end Rearrange
