import Mathlib.Data.Set.Card
import Mathlib.Logic.Relation
import Rearrange.Placement
import Rearrange.Proofs.Store.Relink
import Rearrange.Proofs.Store.Sweep

namespace Rearrange.Store

/-- A node lists another as its child. -/
def Lists (s : Store) (p c : NodeId) : Prop :=
  c ∈ s.children p

/-- A node remembers another as its parent. -/
def Remembers (s : Store) (c p : NodeId) : Prop :=
  s.parent c = some p

/-- A node stands below the parent that it remembers. -/
def IsPlaced (s : Store) (c p : NodeId) : Prop :=
  s.Remembers c p ∧ s.Lists p c

/-- No node stands below itself. -/
def Acyclic (s : Store) : Prop :=
  ∀ id, ¬ Relation.TransGen s.Lists id id

/-- The way up from one node ends at the other, which has no parent. -/
inductive Climbs (s : Store) : NodeId → NodeId → Prop where
  | top {id : NodeId} (h : s.parent id = none) : Climbs s id id
  | up {id p r : NodeId} (h : s.parent id = some p) (habove : Climbs s p r) : Climbs s id r

/-- What is collected on the way up from a node: the places of all nodes below the one without
parent, or the reason why one of them has no place. -/
inductive Ascends (s : Store) : NodeId → Except LookupError (List Nat) → Prop where
  | top {id : NodeId} (h : s.parent id = none) : Ascends s id (.ok [])
  | lost {id p : NodeId} {e : LookupError} (h : s.parent id = some p)
      (hindex : s.indexInParent id = .error e) : Ascends s id (.error e)
  | up {id p : NodeId} {i : Nat} {above : Except LookupError (List Nat)} (h : s.parent id = some p)
      (hindex : s.indexInParent id = .ok i) (habove : Ascends s p above) :
      Ascends s id (above.map (i :: ·))

/-- Every way up ends. -/
def Rooted (s : Store) : Prop :=
  ∀ id, ∃ r, s.Climbs id r

/-- What holds of the ways up in a store. Looking for the root follows the way up to its end. There
is one unless the way comes to a node that has lost its place and is met again further up. The
search for the path of a node always ends, since it stops where a node has lost its place. Where
every way up ends, attaching nodes keeps it so if and only if none of them is met on the way up from
the node that they are attached to. -/
structure WaysUp (s : Store) : Prop where
  root_eq_some_iff : ∀ id r, s.root id = some r ↔ s.Climbs id r
  exists_climbs_iff : ∀ id, (∃ r, s.Climbs id r) ↔ ¬ ∃ c,
    Relation.ReflTransGen s.Remembers id c ∧ Relation.TransGen s.Remembers c c ∧
      s.indexInParent c = .error .detached
  ascends : ∀ id, s.Ascends id (s.placesWithin s.size id)
  addChild_iff : s.Rooted → ∀ (id child : NodeId) (s' : Store), child < s.size →
    s.addChild id child = .ok s' → (s'.Rooted ↔ ¬ Relation.ReflTransGen s.Remembers id child)
  setChildren_iff : s.Rooted → ∀ (id : NodeId) (cs : List NodeId) (s' : Store),
    (∀ c ∈ cs, c < s.size) → s.setChildren id cs = .ok s' →
      (s'.Rooted ↔ ∀ c ∈ cs, ¬ Relation.ReflTransGen s.Remembers id c)

/-- What can be done with nodes that never takes a child away: making a node, attaching one, and
forgetting parents that are gone. -/
inductive Attach (s : Store) : Store → Prop where
  | make {kind : Kind} {given : Datum} {cs : List NodeId} {handle : Option Handle} {id : NodeId}
      {s' : Store} (hcs : ∀ c ∈ cs, c < s.size) (h : s.make kind given cs handle = .ok (id, s')) :
      Attach s s'
  | addChild {id child : NodeId} {s' : Store} (hid : id < s.size) (hchild : child < s.size)
      (h : s.addChild id child = .ok s') : Attach s s'
  | sweep (roots : List NodeId) : Attach s (s.sweep roots)

/-- Whatever can be done with nodes. -/
inductive Edit (s : Store) : Store → Prop where
  | attach {s' : Store} (h : Attach s s') : Edit s s'
  | setChildren {id : NodeId} {cs : List NodeId} {s' : Store} (hid : id < s.size)
      (hcs : ∀ c ∈ cs, c < s.size) (h : s.setChildren id cs = .ok s') : Edit s s'
  | flatten {id : NodeId} (hid : id < s.size) : Edit s (s.flatten id)
  | splice {target placement : NodeId} (htarget : target < s.size)
      (hplacement : placement < s.size) : Edit s (s.splice target placement).store

/-- The stores that are built from nothing without ever letting a node stand below itself. -/
inductive Built : Store → Prop where
  | empty : Built ∅
  | edit {s s' : Store} (h : Built s) (hedit : Edit s s') (hacyclic : s'.Acyclic) : Built s'

/-- The stores that are built from nothing by attaching nodes only. -/
inductive Grown : Store → Prop where
  | empty : Grown ∅
  | attach {s s' : Store} (h : Grown s) (hattach : Attach s s') : Grown s'

variable {s s' : Store} {id p c r : NodeId}

theorem lt_size_of_parent_eq_some (h : s.parent id = some p) : id < s.size := by
  by_contra hid
  simp only [size] at hid
  simp [parent, cell, hid, Cell.vacant] at h

theorem lt_size_of_mem_children (h : c ∈ s.children p) : p < s.size := by
  by_contra hp
  simp only [size] at hp
  simp [children, cell, hp, Cell.vacant, Content.children] at h

/-- A store in which every node lists nodes of a lower rank only has no downward cycle. -/
theorem acyclic_of_rank (rank : NodeId → Nat)
    (h : ∀ p < s.size, ∀ c ∈ s.children p, rank c < rank p) : s.Acyclic := by
  have hdown : ∀ p c, Relation.TransGen s.Lists p c → rank c < rank p := by
    intro p c hsteps
    induction hsteps with
    | single hlists => exact h p (lt_size_of_mem_children hlists) _ hlists
    | tail hprefix hlists ih => exact (h _ (lt_size_of_mem_children hlists) _ hlists).trans ih
  exact fun id hcircle => Nat.lt_irrefl _ (hdown id id hcircle)

variable {R : NodeId → NodeId → Prop}

/-- The nodes that steps of a relation lead to. -/
def ahead (s : Store) (R : NodeId → NodeId → Prop) (id : NodeId) : Set NodeId :=
  {n | n < s.size ∧ Relation.ReflTransGen R id n}

/-- Steps of a relation between nodes lead to nodes of the store. -/
theorem ahead_subset (s : Store) (R : NodeId → NodeId → Prop) (id : NodeId) :
    s.ahead R id ⊆ Finset.range s.size :=
  fun _ hn => Finset.mem_coe.mpr (Finset.mem_range.mpr hn.1)

/-- No more nodes lie ahead than the store has. -/
theorem ncard_ahead_le (s : Store) (R : NodeId → NodeId → Prop) (id : NodeId) :
    (s.ahead R id).ncard ≤ s.size := by
  have hle := Set.ncard_le_ncard (s.ahead_subset R id) (Finset.finite_toSet _)
  rwa [Set.ncard_coe_finset, Finset.card_range] at hle

/-- A step that leads into no circle leaves fewer nodes ahead. -/
theorem ncard_ahead_lt (hid : id < s.size) (hstep : R id p)
    (hcircle : ¬ Relation.TransGen R id id) : (s.ahead R p).ncard < (s.ahead R id).ncard := by
  have hfinite := (Finset.finite_toSet _).subset (s.ahead_subset R id)
  refine Set.ncard_lt_ncard ((Set.ssubset_iff_of_subset fun n hn => ?_).mpr ?_) hfinite
  · exact ⟨hn.1, .head hstep hn.2⟩
  · exact ⟨id, ⟨hid, .refl⟩, fun hmem => hcircle (.head' hstep hmem.2)⟩

/-- A way up that ends comes to no circle. -/
theorem Climbs.not_circle (h : s.Climbs id r) (habove : Relation.ReflTransGen s.Remembers id c) :
    ¬ Relation.TransGen s.Remembers c c := by
  induction h with
  | @top id h =>
    intro hcircle
    have htop : ∀ n, ¬ s.Remembers id n := fun n hn => by
      rw [Remembers, h] at hn
      cases hn
    obtain rfl | ⟨n, hn, -⟩ := habove.cases_head
    · obtain ⟨n, hn, -⟩ := Relation.TransGen.head'_iff.mp hcircle
      exact htop n hn
    · exact htop n hn
  | @up id p r h hrest ih =>
    have honly : ∀ n, s.Remembers id n → n = p := fun n hn => by
      rw [Remembers, h] at hn
      exact (Option.some.inj hn).symm
    obtain rfl | ⟨n, hn, habove⟩ := habove.cases_head
    · intro hcircle
      obtain ⟨n, hn, hback⟩ := Relation.TransGen.head'_iff.mp hcircle
      obtain rfl := honly n hn
      exact ih hback hcircle
    · obtain rfl := honly n hn
      exact ih habove

/-- The loop finds the end of a way up, if it may take as many steps as the way has. -/
theorem Climbs.rootWithin_eq (h : s.Climbs id r) {nodes : Nat}
    (hnodes : (s.ahead s.Remembers id).ncard < nodes) : s.rootWithin nodes id = some r := by
  induction h generalizing nodes with
  | top h =>
    obtain ⟨nodes, rfl⟩ := Nat.exists_eq_add_of_lt hnodes
    rw [rootWithin, h]
  | @up id p r h hrest ih =>
    obtain ⟨nodes, rfl⟩ := Nat.exists_eq_add_of_lt hnodes
    have hfewer := ncard_ahead_lt (lt_size_of_parent_eq_some h) h
      ((Climbs.up h hrest).not_circle .refl)
    rw [rootWithin, h]
    exact ih (by omega)

/-- What the loop finds is the end of the way up. -/
theorem climbs_of_rootWithin {nodes : Nat} (h : s.rootWithin nodes id = some r) :
    s.Climbs id r := by
  induction nodes generalizing id with
  | zero => cases h
  | succ nodes ih =>
    rw [rootWithin] at h
    split at h
    · next hparent =>
      obtain rfl := Option.some.inj h
      exact .top hparent
    · next p hparent => exact .up hparent (ih h)

/-- Looking for the root of a node finds the end of the way up, if there is one. -/
theorem root_eq_some_iff : s.root id = some r ↔ s.Climbs id r :=
  ⟨climbs_of_rootWithin,
    fun h => h.rootWithin_eq (Nat.lt_succ_of_le (s.ncard_ahead_le s.Remembers id))⟩

/-- The way up ends if it comes to no circle. -/
theorem exists_climbs (h : ∀ c, Relation.ReflTransGen s.Remembers id c →
    ¬ Relation.TransGen s.Remembers c c) : ∃ r, s.Climbs id r := by
  induction hsize : (s.ahead s.Remembers id).ncard using Nat.strong_induction_on
    generalizing id with
  | _ size ih =>
    cases hparent : s.parent id with
    | none => exact ⟨id, .top hparent⟩
    | some p =>
      have hfewer := ncard_ahead_lt (lt_size_of_parent_eq_some hparent) hparent (h id .refl)
      obtain ⟨r, hr⟩ := ih _ (hsize ▸ hfewer) (fun c hc => h c (.head hparent hc)) rfl
      exact ⟨r, .up hparent hr⟩

/-- A node is detached when the parent it remembers does not list it. -/
theorem indexInParent_eq_detached_iff :
    s.indexInParent id = .error .detached ↔ ∃ p, s.Remembers id p ∧ ¬ s.Lists p id := by
  constructor
  · intro h
    rw [indexInParent] at h
    split at h
    · cases h
    · next p hparent =>
      split at h
      · cases h
      · next hindex => exact ⟨p, hparent, List.idxOf?_eq_none_iff.mp hindex⟩
  · rintro ⟨p, hparent, hlists⟩
    rw [Remembers] at hparent
    rw [indexInParent, hparent]
    simp only [List.idxOf?_eq_none_iff.mpr hlists]

/-- A node with an index stands below its parent. -/
theorem isPlaced_of_indexInParent_eq_ok {i : Nat} (hparent : s.parent id = some p)
    (h : s.indexInParent id = .ok i) : s.IsPlaced id p := by
  refine ⟨hparent, ?_⟩
  by_contra hlists
  rw [indexInParent_eq_detached_iff.mpr ⟨p, hparent, hlists⟩] at h
  cases h

/-- No way up through placed nodes comes back to where it began. -/
theorem Acyclic.not_transGen_isPlaced (h : s.Acyclic) (id : NodeId) :
    ¬ Relation.TransGen s.IsPlaced id id := by
  intro hcircle
  have hlisted : Relation.TransGen (Function.swap s.Lists) id id :=
    Relation.TransGen.mono (fun _ _ hstep => hstep.2) id id hcircle
  exact h id (Relation.transGen_swap.mp hlisted)

/-- Where no node stands below itself, every circle of parents has a node that has lost its
place. -/
theorem Acyclic.exists_detached (h : s.Acyclic) (hcircle : Relation.TransGen s.Remembers c c) :
    ∃ d, Relation.ReflTransGen s.Remembers c d ∧ Relation.TransGen s.Remembers d d ∧
      s.indexInParent d = .error .detached := by
  by_contra hnone
  have hplaced : ∀ d, Relation.TransGen s.Remembers c d → Relation.ReflTransGen s.Remembers d c →
      Relation.TransGen s.IsPlaced c d := by
    have hstep : ∀ d e, Relation.ReflTransGen s.Remembers c d → s.Remembers d e →
        Relation.ReflTransGen s.Remembers e c → s.IsPlaced d e := by
      intro d e hd hde hback
      refine ⟨hde, by_contra fun hlists => hnone ⟨d, hd, ?_, ?_⟩⟩
      · exact .head' hde (hback.trans hd)
      · exact indexInParent_eq_detached_iff.mpr ⟨e, hde, hlists⟩
    intro d hd hback
    induction hd with
    | single hfirst => exact .single (hstep _ _ .refl hfirst hback)
    | tail hprefix hlast ih =>
      exact (ih (.head hlast hback)).tail (hstep _ _ hprefix.to_reflTransGen hlast hback)
  exact h.not_transGen_isPlaced c (hplaced c hcircle .refl)

/-- A way up ends unless it comes to a circle, which has a detached node in it. -/
theorem Acyclic.exists_climbs_iff (h : s.Acyclic) :
    (∃ r, s.Climbs id r) ↔ ¬ ∃ c, Relation.ReflTransGen s.Remembers id c ∧
      Relation.TransGen s.Remembers c c ∧ s.indexInParent c = .error .detached := by
  constructor
  · rintro ⟨r, hr⟩ ⟨c, habove, hcircle, -⟩
    exact hr.not_circle habove hcircle
  · intro hnone
    refine exists_climbs fun c habove hcircle => hnone ?_
    obtain ⟨d, hd, hdcircle, hdetached⟩ := h.exists_detached hcircle
    exact ⟨d, habove.trans hd, hdcircle, hdetached⟩

/-- Where no node stands below itself, the search for a path ends. Each of its steps goes from a
node to one that lists the node. -/
theorem Acyclic.ascends (h : s.Acyclic) {steps : Nat}
    (hsteps : (s.ahead s.IsPlaced id).ncard ≤ steps) : s.Ascends id (s.placesWithin steps id) := by
  induction steps generalizing id with
  | zero =>
    refine .top ?_
    by_contra hparent
    obtain ⟨p, hp⟩ := Option.ne_none_iff_exists'.mp hparent
    have hfinite := (Finset.finite_toSet _).subset (s.ahead_subset s.IsPlaced id)
    rw [Nat.le_zero, Set.ncard_eq_zero hfinite] at hsteps
    have hmem : id ∈ s.ahead s.IsPlaced id := ⟨lt_size_of_parent_eq_some hp, .refl⟩
    rw [hsteps] at hmem
    exact hmem
  | succ steps ih =>
    rw [placesWithin]
    cases hparent : s.parent id with
    | none => exact .top hparent
    | some p =>
      cases hindex : s.indexInParent id with
      | error e => exact .lost hparent hindex
      | ok i =>
        -- Each step leaves a node behind for good, so fewer lie ahead than steps are left.
        have hfewer := ncard_ahead_lt (lt_size_of_parent_eq_some hparent)
          (isPlaced_of_indexInParent_eq_ok hparent hindex) (h.not_transGen_isPlaced id)
        have habove := ih (Nat.le_of_lt_succ (hfewer.trans_le hsteps))
        have hcollect : (do let above ← s.placesWithin steps p; return i :: above) =
            (s.placesWithin steps p).map (i :: ·) := by
          cases s.placesWithin steps p <;> rfl
        simp only [bind, Except.bind] at hcollect ⊢
        rw [hcollect]
        exact .up hparent hindex habove

theorem Climbs.congr (h : s.Climbs id r) (hparent : ∀ n, s'.parent n = s.parent n) :
    s'.Climbs id r := by
  induction h with
  | top h => exact .top ((hparent _).trans h)
  | up h _ ih => exact .up ((hparent _).trans h) ih

/-- Whether ways up end depends on the remembered parents only. -/
theorem Rooted.congr (h : s.Rooted) (hparent : ∀ n, s'.parent n = s.parent n) : s'.Rooted :=
  fun id => (h id).imp fun _ hr => hr.congr hparent

variable {cs : List NodeId}

theorem remembers_adopt_of_mem (hcs : ∀ c ∈ cs, c < s.size) (hc : c ∈ cs) :
    (s.adopt p cs).Remembers c p := by
  rw [Remembers, parent_adopt, if_pos ⟨hc, hcs c hc⟩]

private theorem parent_adopt_of_notMem (hid : id ∉ cs) :
    (s.adopt p cs).parent id = s.parent id := by
  rw [parent_adopt, if_neg fun h => hid h.1]

/-- A way up that comes to no adopted node stays as it is. -/
theorem Climbs.adopt (h : s.Climbs id r)
    (hcs : ∀ c ∈ cs, ¬ Relation.ReflTransGen s.Remembers id c) : (s.adopt p cs).Climbs id r := by
  induction h with
  | @top id h => exact .top ((parent_adopt_of_notMem fun hid => hcs id hid .refl).trans h)
  | @up id q r h hrest ih =>
    refine .up ((parent_adopt_of_notMem fun hid => hcs id hid .refl).trans h) (ih fun c hc hq => ?_)
    exact hcs c hc (.head h hq)

/-- A way up that comes to an adopted node still does, if only to the first one. -/
private theorem exists_mem_of_reflTransGen (hsteps : Relation.ReflTransGen s.Remembers id c)
    (hc : c ∈ cs) : ∃ d ∈ cs, Relation.ReflTransGen (s.adopt p cs).Remembers id d := by
  induction hsteps using Relation.ReflTransGen.head_induction_on with
  | refl => exact ⟨c, hc, .refl⟩
  | @head id q hstep hrest ih =>
    by_cases hid : id ∈ cs
    · exact ⟨id, hid, .refl⟩
    · obtain ⟨d, hd, hsteps⟩ := ih
      exact ⟨d, hd, .head ((parent_adopt_of_notMem hid).trans hstep) hsteps⟩

/-- Adopting nodes closes a circle if and only if one of them stands above the node that adopts. -/
theorem Rooted.adopt_iff (h : s.Rooted) (hcs : ∀ c ∈ cs, c < s.size) :
    (s.adopt p cs).Rooted ↔ ∀ c ∈ cs, ¬ Relation.ReflTransGen s.Remembers p c := by
  constructor
  · intro hrooted c hc habove
    obtain ⟨d, hd, hsteps⟩ := exists_mem_of_reflTransGen (p := p) habove hc
    obtain ⟨r, hr⟩ := hrooted d
    exact hr.not_circle .refl (.head' (remembers_adopt_of_mem hcs hd) hsteps)
  · intro habove id
    obtain ⟨top, htop⟩ := h p
    have hp : (s.adopt p cs).Climbs p top := htop.adopt habove
    obtain ⟨r, hr⟩ := h id
    induction hr with
    | @top id hparent =>
      by_cases hid : id ∈ cs
      · exact ⟨top, .up (remembers_adopt_of_mem hcs hid) hp⟩
      · exact ⟨id, .top ((parent_adopt_of_notMem hid).trans hparent)⟩
    | @up id q r hparent hrest ih =>
      by_cases hid : id ∈ cs
      · exact ⟨top, .up (remembers_adopt_of_mem hcs hid) hp⟩
      · obtain ⟨r', hr'⟩ := ih
        exact ⟨r', .up ((parent_adopt_of_notMem hid).trans hparent) hr'⟩

private theorem parent_modify_content (s : Store) (id : NodeId) (f : Cell → Content) (n : NodeId) :
    (s.modify id fun c => { c with content := f c }).parent n = s.parent n := by
  rw [parent, cell_modify]
  split <;> rfl

/-- Writing the content of a node before it adopts others makes no difference to the ways up. -/
theorem Rooted.modify_adopt_iff (h : s.Rooted) (f : Cell → Content) (hcs : ∀ c ∈ cs, c < s.size) :
    ((s.modify id fun c => { c with content := f c }).adopt id cs).Rooted ↔
      ∀ c ∈ cs, ¬ Relation.ReflTransGen s.Remembers id c := by
  have hsame : (s.modify id fun c => { c with content := f c }).Remembers = s.Remembers := by
    funext c p
    rw [Remembers, parent_modify_content, Remembers]
  rw [(h.congr (s.parent_modify_content id f)).adopt_iff (size_modify s id _ ▸ hcs), hsame]

/-- Ways up still end unless the child is on the way up from its new parent. -/
theorem Rooted.addChild_iff (h : s.Rooted) {child : NodeId} (hchild : child < s.size)
    (hadd : s.addChild id child = .ok s') :
    s'.Rooted ↔ ¬ Relation.ReflTransGen s.Remembers id child := by
  obtain ⟨-, rfl⟩ := exists_of_addChild hadd
  rw [← List.forall_mem_singleton (p := fun c => ¬ Relation.ReflTransGen s.Remembers id c)]
  exact h.modify_adopt_iff (fun c => c.content.withChildren (c.content.children ++ [child]))
    (List.forall_mem_singleton.mpr hchild)

/-- Ways up still end unless one of the children is on the way up from its new parent. -/
theorem Rooted.setChildren_iff (h : s.Rooted) (hcs : ∀ c ∈ cs, c < s.size)
    (hset : s.setChildren id cs = .ok s') :
    s'.Rooted ↔ ∀ c ∈ cs, ¬ Relation.ReflTransGen s.Remembers id c := by
  obtain ⟨rfl, rfl⟩ | rfl := eq_of_setChildren hset
  · exact iff_of_true h (List.forall_mem_nil _)
  · exact h.modify_adopt_iff (fun c => c.content.withChildren cs) hcs

theorem attach_push_group (s : Store) : Attach s (s.push { content := .branch .group [] }) := by
  have hmake : s.make (.branch .group) .null [] none =
      .ok (s.size, s.push { content := .branch .group [] }) :=
    congrArg Except.ok (makeBranch_eq s .group [] none)
  exact .make (List.forall_mem_nil _) hmake

/-- Every node that remembers a parent is listed by it. -/
def AllPlaced (s : Store) : Prop :=
  ∀ c p, s.Remembers c p → s.Lists p c

/-- Nodes stay placed where lists of children grow and parents stay. -/
theorem AllPlaced.extend (h : s.AllPlaced) (hparent : ∀ c, s'.parent c = s.parent c)
    (hlists : ∀ p c, s.Lists p c → s'.Lists p c) : s'.AllPlaced :=
  fun c p hc => hlists p c (h c p ((hparent c).symm.trans hc))

/-- A new node has no parent that could fail to list it. -/
theorem allPlaced_push (h : s.AllPlaced) (content : Content) (handle : Option Handle) :
    (s.push { content, handle }).AllPlaced := by
  intro c p hparent
  have hc := lt_size_of_parent_eq_some hparent
  rw [size_push] at hc
  obtain hc | rfl := Nat.lt_succ_iff_lt_or_eq.mp hc
  · rw [Remembers, parent, cell_push_of_lt hc] at hparent
    have hlists := h c p hparent
    rwa [Lists, Store.children, cell_push_of_lt (lt_size_of_mem_children hlists)]
  · rw [Remembers, parent, cell_push_size] at hparent
    cases hparent

/-- The nodes that are given a parent are placed if the parent lists them all. -/
theorem allPlaced_adopt (h : s.AllPlaced) (hcs : ∀ c ∈ cs, s.Lists p c) :
    (s.adopt p cs).AllPlaced := by
  intro c q hparent
  rw [Remembers, parent_adopt] at hparent
  rw [Lists, children, content_adopt]
  split at hparent
  · next hc =>
    obtain rfl := Option.some.inj hparent
    exact hcs c hc.1
  · exact h c q hparent

/-- No step that only attaches nodes takes a place away. -/
theorem Attach.allPlaced (h : Attach s s') (hplaced : s.AllPlaced) : s'.AllPlaced := by
  cases h with
  | make hcs h =>
    obtain ⟨content, -, rfl⟩ := exists_of_make h
    refine allPlaced_adopt (allPlaced_push hplaced _ _) fun c hc => ?_
    rwa [Lists, children, cell_push_size]
  | @addChild id child s' hid hchild h =>
    obtain ⟨⟨shape, hkind⟩, rfl⟩ := exists_of_addChild h
    cases hcontent : (s.cell id).content with
    | literal l => simp [kind, hcontent, Content.kind] at hkind
    | branch shape cs =>
      have hself : ∀ f : Cell → Cell, (s.modify id f).cell id = f (s.cell id) := fun _ =>
        cell_modify_self hid
      rw [attach_eq]
      refine allPlaced_adopt (hplaced.extend (fun c => ?_) fun p c hlists => ?_) fun c hc => ?_
      · exact s.parent_modify_content id _ c
      · by_cases hp : p = id
        · subst hp
          rw [Lists, children, hcontent] at hlists
          rw [Lists, children, hself, hcontent]
          exact List.mem_append_left _ hlists
        · rwa [Lists, children, cell_modify_of_ne hp]
      · rw [Lists, children, hself, hcontent]
        exact List.mem_append_right _ hc
  | sweep roots =>
    intro c p hparent
    rw [Remembers, parent_sweep] at hparent
    rw [Lists, children, content_sweep]
    exact hplaced c p (Option.filter_eq_some_iff.mp hparent).1

/-- Where children are never taken away, every node is listed by its parent. -/
theorem Grown.allPlaced (h : Grown s) : s.AllPlaced := by
  induction h with
  | empty =>
    intro c p hparent
    exact absurd (lt_size_of_parent_eq_some hparent) (Nat.not_lt_zero c)
  | attach h hattach ih => exact hattach.allPlaced ih

/-- Where no node stands below itself, this is what ways up are like. -/
theorem Acyclic.waysUp (h : s.Acyclic) : s.WaysUp :=
  ⟨fun _ _ => root_eq_some_iff, fun _ => h.exists_climbs_iff,
    fun id => h.ascends (s.ncard_ahead_le s.IsPlaced id),
    fun hrooted _ _ _ hchild hadd => hrooted.addChild_iff hchild hadd,
    fun hrooted _ _ _ hcs hset => hrooted.setChildren_iff hcs hset⟩

/-- Where no node stands below itself, the way up from a node ends unless a node that has lost its
place leads it round in a circle. No place is lost in a store that is built by attaching nodes only,
so there every node has a root. -/
theorem ways_up (h : s.Acyclic) : s.WaysUp ∧ (Grown s → ∀ id, ∃ r, s.root id = some r) := by
  refine ⟨h.waysUp, fun hgrown id => ?_⟩
  obtain ⟨r, hr⟩ : ∃ r, s.Climbs id r := by
    refine h.exists_climbs_iff.mpr ?_
    rintro ⟨c, -, -, hdetached⟩
    obtain ⟨p, hparent, hlists⟩ := indexInParent_eq_detached_iff.mp hdetached
    exact hlists (hgrown.allPlaced c p hparent)
  exact ⟨r, root_eq_some_iff.mpr hr⟩

/-- A node has lost its place and stands above its own parent, so the way up from it goes round in a
circle; where one node is attached below another and no more is done, the way up ends. -/
theorem ways_up_circle_and_attached :
    let group (cs : List NodeId) (parent : Option NodeId) : Cell :=
      ⟨.branch .group cs, none, parent⟩
    let circle : Store := ⟨#[group [] (some 1), group [0] (some 0)]⟩
    let attached : Store := ⟨#[group [1] none, group [] (some 0)]⟩
    circle.Acyclic ∧ circle.indexInParent 1 = .error .detached ∧ circle.WaysUp ∧
      attached.Acyclic ∧ Grown attached ∧ ∃ r, attached.root 1 = some r := by
  intro group circle attached
  let apart : Store := ⟨#[group [] none, group [] none]⟩
  have hattached : apart.addChild 0 1 = .ok attached := rfl
  have hcircle : circle.Acyclic := acyclic_of_rank id (by decide)
  have hacyclic : attached.Acyclic := acyclic_of_rank (1 - ·) (by decide)
  have hgrown : Grown attached :=
    .attach (.attach (.attach .empty (attach_push_group _)) (attach_push_group _))
      (.addChild (by decide) (by decide) hattached)
  exact ⟨hcircle, rfl, (ways_up hcircle).1, hacyclic, hgrown, (ways_up hacyclic).2 hgrown 1⟩

/-- Two groups are made, and one is attached below the other. It is taken away again, but goes on
remembering its parent, and then the other one is attached below it. Now each is the parent of the
other, and neither has a root. Both are in use, and no node ever stood below itself. -/
theorem parents_in_a_circle :
    let group (cs : List NodeId) (parent : Option NodeId) : Cell :=
      ⟨.branch .group cs, none, parent⟩
    let s : Store := ⟨#[group [] (some 1), group [0] (some 0)]⟩
    Built s ∧ ∀ id < s.size, id ∈ s.reached [0, 1] ∧ s.root id = none ∧ ¬ ∃ r, s.Climbs id r := by
  intro group s
  let one : Store := ⟨#[group [] none]⟩
  let apart : Store := ⟨#[group [] none, group [] none]⟩
  let attached : Store := ⟨#[group [1] none, group [] (some 0)]⟩
  let emptied : Store := ⟨#[group [] none, group [] (some 0)]⟩
  have hattached : apart.addChild 0 1 = .ok attached := rfl
  have hemptied : attached.setChildren 0 [] = .ok emptied := rfl
  have hcircle : emptied.addChild 1 0 = .ok s := rfl
  have hbuilt : Built one :=
    .edit .empty (.attach (attach_push_group _)) (acyclic_of_rank id (by decide))
  have hbuilt : Built apart :=
    .edit hbuilt (.attach (attach_push_group _)) (acyclic_of_rank id (by decide))
  have hbuilt : Built attached :=
    .edit hbuilt (.attach (.addChild (by decide) (by decide) hattached))
      (acyclic_of_rank (1 - ·) (by decide))
  have hbuilt : Built emptied :=
    .edit hbuilt (.setChildren (by decide) (List.forall_mem_nil _) hemptied)
      (acyclic_of_rank id (by decide))
  have hbuilt : Built s :=
    .edit hbuilt (.attach (.addChild (by decide) (by decide) hcircle))
      (acyclic_of_rank id (by decide))
  have hroot : ∀ id < s.size, id ∈ s.reached [0, 1] ∧ s.root id = none := by decide
  refine ⟨hbuilt, fun id hid => ⟨(hroot id hid).1, (hroot id hid).2, ?_⟩⟩
  rintro ⟨r, hr⟩
  rw [← root_eq_some_iff, (hroot id hid).2] at hr
  cases hr

end Rearrange.Store
