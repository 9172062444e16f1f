import Rearrange.Proofs.Parse.RoundTrip
import Rearrange.Proofs.Placement.Made

namespace Rearrange

/-- Inserting an element at two positions gives the same list if and only if it is equal to all
elements between them. -/
private theorem insertIdx_eq_insertIdx_iff {α : Type} {l : List α} {i j : Nat} (hij : i ≤ j)
    (hj : j ≤ l.length) (a : α) :
    l.insertIdx i a = l.insertIdx j a ↔ ∀ m, i ≤ m → m < j → l[m]? = some a := by
  induction l generalizing i j with
  | nil =>
    obtain rfl : j = 0 := Nat.le_zero.mp hj
    obtain rfl : i = 0 := Nat.le_zero.mp hij
    simp
  | cons b l ih =>
    cases j with
    | zero =>
      obtain rfl : i = 0 := Nat.le_zero.mp hij
      simp
    | succ j =>
      have hj := Nat.le_of_succ_le_succ hj
      cases i with
      | zero =>
        -- The element passes its first neighbour, and then it stands at the front of the others.
        have hpass : a :: b :: l = b :: l.insertIdx j a ↔
            b = a ∧ l.insertIdx 0 a = l.insertIdx j a := by
          rw [List.insertIdx_zero, List.cons_eq_cons, eq_comm]
          exact and_congr_right fun hba => by rw [hba]
        rw [List.insertIdx_zero, List.insertIdx_succ_cons, hpass, ih j.zero_le hj]
        constructor
        · rintro ⟨rfl, hrest⟩ m - hm
          cases m with
          | zero => rfl
          | succ m => exact hrest m m.zero_le (Nat.lt_of_succ_lt_succ hm)
        · intro h
          refine ⟨Option.some.inj (h 0 (Nat.le_refl 0) j.succ_pos), fun m _ hm => ?_⟩
          exact h (m + 1) (Nat.zero_le _) (Nat.succ_lt_succ hm)
      | succ i =>
        rw [List.insertIdx_succ_cons, List.insertIdx_succ_cons, List.cons_inj_right,
          ih (Nat.le_of_succ_le_succ hij) hj]
        constructor
        · intro h m him hmj
          cases m with
          | zero => exact absurd him (Nat.not_succ_le_zero i)
          | succ m => exact h m (Nat.le_of_succ_le_succ him) (Nat.lt_of_succ_lt_succ hmj)
        · intro h m him hmj
          exact h (m + 1) (Nat.succ_le_succ him) (Nat.succ_lt_succ hmj)

namespace Tree

variable {α : Type}

theorem IsCanonical.of_mem_children {t c : Tree α} (h : t.IsCanonical) (hc : c ∈ t.children) :
    c.IsCanonical := by
  cases h with
  | literal a l => cases hc
  | group a hd =>
    obtain rfl := List.mem_singleton.mp hc
    exact hd
  | chain a hlength hkind hcs => exact hcs c hc

/-- The tree is what stands somewhere in a canonical tree. -/
def InCanonical (t : Tree α) : Prop :=
  ∃ (root : Tree α) (place : List Nat), root.IsCanonical ∧ root.subtreeAt? place = some t

theorem InCanonical.isCanonical {t : Tree α} (h : t.InCanonical) : t.IsCanonical := by
  obtain ⟨root, place, hroot, ht⟩ := h
  induction place generalizing root with
  | nil =>
    obtain rfl := Option.some.inj ht
    exact hroot
  | cons i place ih =>
    obtain ⟨c, hget, hc⟩ := subtreeAt?_cons_eq_some_iff.mp ht
    exact ih c (hroot.of_mem_children (List.mem_of_getElem? hget)) hc

/-- Canonical trees with the same text are the same expression. -/
theorem IsCanonical.flat_eq_iff {t u : Tree α} (ht : t.IsCanonical) (hu : u.IsCanonical) :
    t.flat = u.flat ↔ t.erase = u.erase := by
  constructor
  · intro h
    have hread := parse_flat ht
    rw [h, parse_flat hu] at hread
    exact (Except.ok.inj hread).symm
  · intro h
    rw [← flat_erase t, h, flat_erase]

/-- All of the trees between two positions are the same expression as the given one. -/
def EqualBetween (f : Tree α) (siblings : List (Tree α)) (i j : Nat) : Prop :=
  ∀ m c, i ≤ m → m < j → siblings[m]? = some c → c.erase = f.erase

variable {p f : Tree α} {k i j : Nat}

/-- The placements of a child at two positions are the same expression if and only if all siblings
between them are the same expression as the child. -/
theorem erase_withMoved_eq_iff (hf : p.children[k]? = some f) (hij : i ≤ j)
    (hj : j < p.children.length) :
    (p.withMoved k i).erase = (p.withMoved k j).erase ↔
      f.EqualBetween (p.children.eraseIdx k) i j := by
  obtain ⟨hk, rfl⟩ := List.getElem?_eq_some_iff.mp hf
  have hkErased : k < (p.children.map erase).length := by rwa [List.length_map]
  have hlength : ((p.children.map erase).eraseIdx k).length = p.children.length - 1 := by
    rw [List.length_eraseIdx_of_lt hkErased, List.length_map]
  -- Kind and handle are the same, so only the order of the children can differ.
  have hchildren : (p.withMoved k i).erase = (p.withMoved k j).erase ↔
      moveElement (p.children.map erase) k i = moveElement (p.children.map erase) k j := by
    rw [erase, erase, map_withMoved, map_withMoved, ← erase, ← children_erase]
    cases p with
    | literal a l => cases hk
    | branch a s cs => simp [withMoved, children]
  rw [hchildren, moveElement_eq hkErased, moveElement_eq hkErased,
    insertIdx_eq_insertIdx_iff hij (by omega), List.eraseIdx_map, List.getElem_map]
  refine forall_congr' fun m => ⟨fun h c him hmj hc => ?_, fun h him hmj => ?_⟩
  · have hm := h him hmj
    rw [List.getElem?_map, hc, Option.map_some] at hm
    exact Option.some.inj hm
  · have hm : m < (p.children.eraseIdx k).length := by
      rw [List.length_eraseIdx_of_lt hk]
      omega
    rw [List.getElem?_map, List.getElem?_eq_getElem hm, Option.map_some]
    exact congrArg some (h _ him hmj (List.getElem?_eq_getElem hm))

/-- The same for the texts of the placements, if the tree is canonical. -/
theorem IsCanonical.flat_withMoved_eq_iff (hp : p.IsCanonical) (hf : p.children[k]? = some f)
    (hij : i ≤ j) (hj : j < p.children.length) :
    (p.withMoved k i).flat = (p.withMoved k j).flat ↔
      f.EqualBetween (p.children.eraseIdx k) i j := by
  have hcanonical : ∀ m, m < p.children.length → (p.withMoved k m).IsCanonical := fun m hm =>
    (p.rearranged_withMoved k hm).isCanonical hp
  rw [(hcanonical i (Nat.lt_of_le_of_lt hij hj)).flat_eq_iff (hcanonical j hj)]
  exact erase_withMoved_eq_iff hf hij hj

/-- Where no sibling is the same expression as the child, there is one between any two positions
that is not, namely the one right behind the first. -/
private theorem not_equalBetween {siblings : List (Tree α)} (hij : i < j) (hj : j ≤ siblings.length)
    (hne : ∀ c ∈ siblings, c.erase ≠ f.erase) : ¬ f.EqualBetween siblings i j := by
  intro h
  have hi : i < siblings.length := Nat.lt_of_lt_of_le hij hj
  exact hne _ (List.getElem_mem hi) (h i _ (Nat.le_refl i) hij (List.getElem?_eq_getElem hi))

/-- What comparing the placements of a child shows: there is one for every position before, between
and behind the siblings, the one at the child's own index is the tree itself, and two of them are
the same expression, and in a canonical tree have the same text, if and only if the siblings between
their positions are all the same expression as the child. -/
structure ComparesPlacements (p : Tree α) (k : Nat) (f : Tree α) (trees : List (Tree α)) :
    Prop where
  length_eq : trees.length = (p.children.eraseIdx k).length + 1
  getElem?_self : trees[k]? = some p
  erase_eq_iff : ∀ i j t u, i < j → trees[i]? = some t → trees[j]? = some u →
    (t.erase = u.erase ↔ f.EqualBetween (p.children.eraseIdx k) i j)
  flat_eq_iff : p.InCanonical → ∀ i j t u, i < j → trees[i]? = some t → trees[j]? = some u →
    (t.flat = u.flat ↔ f.EqualBetween (p.children.eraseIdx k) i j)
  nodup_flat : p.InCanonical → (∀ c ∈ p.children.eraseIdx k, c.erase ≠ f.erase) →
    (trees.map flat).Nodup

/-- Placements are compared as the trees they are. -/
theorem comparesPlacements_placements (hf : p.children[k]? = some f) :
    p.ComparesPlacements k f (p.placements k) := by
  have hk := (List.getElem?_eq_some_iff.mp hf).1
  have hlength : (p.placements k).length = p.children.length := by simp [placements]
  have hsiblings : (p.children.eraseIdx k).length + 1 = p.children.length := by
    rw [List.length_eraseIdx_of_lt hk]
    omega
  have hget : ∀ {m t}, (p.placements k)[m]? = some t →
      m < p.children.length ∧ t = p.withMoved k m := fun {m t} ht =>
    ⟨hlength ▸ (List.getElem?_eq_some_iff.mp ht).1, eq_withMoved_of_getElem?_placements ht⟩
  constructor
  · rw [hlength, hsiblings]
  · simp [placements, List.getElem?_range hk, withMoved_self]
  · intro i j t u hij ht hu
    obtain ⟨-, rfl⟩ := hget ht
    obtain ⟨hj, rfl⟩ := hget hu
    exact erase_withMoved_eq_iff hf (Nat.le_of_lt hij) hj
  · intro hp i j t u hij ht hu
    obtain ⟨-, rfl⟩ := hget ht
    obtain ⟨hj, rfl⟩ := hget hu
    exact hp.isCanonical.flat_withMoved_eq_iff hf (Nat.le_of_lt hij) hj
  · intro hp hne
    rw [placements, List.map_map, List.nodup_iff_pairwise_ne, List.pairwise_map]
    refine List.pairwise_lt_range.imp_of_mem fun {i j} _ hj hij => ?_
    have hj := List.mem_range.mp hj
    rw [Function.comp_apply, Function.comp_apply, ne_eq,
      hp.isCanonical.flat_withMoved_eq_iff hf (Nat.le_of_lt hij) hj]
    exact not_equalBetween hij (by omega) hne

end Tree

namespace Store

variable {s : Store} {p : Tree NodeId}

/-- A child is found among its siblings at the first index at which it is listed. -/
theorem Holds.exists_idxOf? (h : s.Holds p) {id : NodeId} (hid : id ∈ s.children p.tag) :
    ∃ k f, (s.children p.tag).idxOf? id = some k ∧ p.children[k]? = some f ∧ f.tag = id := by
  obtain ⟨k, hk⟩ := Option.isSome_iff_exists.mp (List.isSome_idxOf?.mpr hid)
  obtain ⟨hlt, hget, -⟩ := List.idxOf?_eq_some_iff.mp hk
  rw [h.children_tag, List.length_map] at hlt
  refine ⟨k, p.children[k], hk, List.getElem?_eq_getElem hlt, ?_⟩
  simpa [h.children_tag] using hget

/-- The labels below the nodes that are made are the placements of the labels. -/
theorem MakesPlacements.map_labelled {s' : Store} {f : Tree NodeId} {k : Nat}
    {made : List (Tree NodeId)} (h : s.MakesPlacements s' p k f made)
    (hf : p.children[k]? = some f) :
    (made.map Tree.tag).map s'.labelled = (p.map s.handle).placements k := by
  have hlength : ((p.map s.handle).placements k).length = p.children.length :=
    Tree.length_placements_map _ p k
  refine List.ext_getElem (by simp [hlength, h.length_eq]) fun j hj hj' => ?_
  rw [List.map_map, List.length_map] at hj
  have hlabel := h.map_handle_eq hf (List.getElem?_eq_getElem hj)
  have hplacement := Tree.eq_withMoved_of_getElem?_placements (List.getElem?_eq_getElem hj')
  rw [hplacement, ← hlabel, List.getElem_map, List.getElem_map]
  exact (h.owns _ (List.getElem_mem hj)).labelled_eq

/-- The placements made of a child that a text and an index name, and the candidates of a child that
remembers its parent, compare as their siblings say: two of them are the same expression if and only
if all siblings between the two positions are the same expression as the child, and in a canonical
tree the same decides whether their texts are equal. The one at the child's own index is the parent.
If no sibling is the same expression as the child, the texts in a canonical tree are all different.
-/
theorem placements_equal_iff (h : s.Holds p) :
    (∀ wanted index k, p.NamesChild wanted index k →
      let o := s.placements p.tag wanted index
      ∃ f ids, p.children[k]? = some f ∧ o.result = .ok ids ∧
        (p.map s.handle).ComparesPlacements k (f.map s.handle) (ids.map o.store.labelled)) ∧
    ∀ id ∈ s.children p.tag, s.parent id = some p.tag →
      let o := s.candidates id
      ∃ k f cs, s.indexInParent id = .ok k ∧ p.children[k]? = some f ∧ f.tag = id ∧
        o.result = .ok cs ∧ (p.map s.handle).ComparesPlacements k (f.map s.handle)
          (cs.map fun c => o.store.labelled c.tree) := by
  -- The nodes made are placements of the labelled tree, and trees are compared by their labels.
  have hcompares : ∀ {k f}, p.children[k]? = some f →
      (p.map s.handle).ComparesPlacements k (f.map s.handle) ((p.map s.handle).placements k) := by
    intro k f hf
    apply Tree.comparesPlacements_placements
    rw [Tree.children_map, List.getElem?_map, hf, Option.map_some]
  constructor
  · intro wanted index k hnames
    obtain ⟨f, hf, -⟩ := hnames.1
    obtain ⟨made, hresult, hmakes, -⟩ :=
      h.exists_placements (h.childMatching_eq_some_iff.mpr hnames) hf
    refine ⟨f, _, hf, hresult, ?_⟩
    rw [hmakes.map_labelled hf]
    exact hcompares hf
  · intro id hid hparent
    obtain ⟨k, f, hindex, hf, rfl⟩ := h.exists_idxOf? hid
    obtain ⟨cs, made, hresult, hmakes, -⟩ := h.exists_candidates hindex hf hparent
    refine ⟨k, f, cs, indexInParent_eq hparent hindex, hf, rfl, hresult, ?_⟩
    have htrees := congrArg (List.map (s.candidates f.tag).store.labelled) hmakes.tree_eq
    rw [hmakes.map_labelled hf, List.map_map] at htrees
    exact htrees ▸ hcompares hf

/-- In a sum of which the last two terms are equal, moving the first of the two makes no difference
as long as it only passes the other. -/
theorem placements_equal_iff_equal_terms :
    let a : Tree (Option Handle) := .literal none ⟨['a'], rfl⟩
    let b : Tree (Option Handle) := .literal none ⟨['b'], rfl⟩
    let sum : Tree (Option Handle) := .branch none (.chain .plus) [b, a, a]
    let s := (∅ : Store).plant sum
    let p := sum.numbered 0
    let o := s.placements p.tag ['a', '\n'] none
    let o' := s.candidates 2
    s.Holds p ∧ p.NamesChild ['a', '\n'] none 1 ∧ s.parent 2 = some p.tag ∧
      p.map s.handle = sum ∧ parse "b+a+a".toList = .ok sum.erase ∧ sum.InCanonical ∧
      (∃ ids first third, o.result = .ok ids ∧
        ids.map o.store.labelled = [first, sum, third] ∧
        sum.ComparesPlacements 1 a [first, sum, third] ∧
        sum.erase = third.erase ∧ first.flat ≠ sum.flat) ∧
      ∃ cs, o'.result = .ok cs ∧
        sum.ComparesPlacements 1 a (cs.map fun c => o'.store.labelled c.tree) := by
  intro a b sum s p o o'
  have hholds : s.Holds p := (owns_plant ∅ sum).holds
  have hnames : p.NamesChild ['a', '\n'] none 1 :=
    hholds.childMatching_eq_some_iff.mp (by decide +kernel)
  have hparent : s.parent 2 = some p.tag := by decide +kernel
  have hlabels : p.map s.handle = sum := map_handle_plant ∅ sum
  have hparse : parse "b+a+a".toList = .ok sum.erase := by decide +kernel
  have hcanonical : sum.InCanonical := by
    refine ⟨sum, [], ?_, Tree.subtreeAt?_nil _⟩
    rw [← Tree.isCanonical_erase_iff]
    exact (parse_eq_ok_iff.mp hparse).1
  have hchild : Tree.map s.handle (.literal 2 ⟨['a'], rfl⟩) = a :=
    Option.some.inj (congrArg (fun t => t.children[1]?) hlabels)
  obtain ⟨hplacements, hcandidates⟩ := placements_equal_iff hholds
  rw [hlabels] at hplacements hcandidates
  refine ⟨hholds, hnames, hparent, hlabels, hparse, hcanonical, ?_, ?_⟩
  · obtain ⟨f, ids, hf, hresult, hcompares⟩ := hplacements _ _ _ hnames
    obtain rfl : .literal 2 ⟨['a'], rfl⟩ = f := Option.some.inj hf
    rw [hchild] at hcompares
    obtain ⟨first, second, third, hids⟩ := List.length_eq_three.mp hcompares.length_eq
    rw [hids] at hcompares
    obtain rfl : second = sum := Option.some.inj hcompares.getElem?_self
    have hequal := hcompares.erase_eq_iff 1 2 _ third (by decide) rfl rfl
    have hdifferent := hcompares.flat_eq_iff hcanonical 0 1 first _ (by decide) rfl rfl
    refine ⟨ids, first, third, hresult, hids, hcompares, ?_, ?_⟩
    · refine hequal.mpr fun m c hfrom hto hc => ?_
      obtain rfl : m = 1 := by omega
      obtain rfl : a = c := Option.some.inj hc
      rfl
    · intro hsame
      have hpassed := hdifferent.mp hsame 0 b (by decide) (by decide) rfl
      exact absurd hpassed (by decide)
  · obtain ⟨k, f, cs, hk, hf, -, hcs, hcompares⟩ :=
      hcandidates 2 (by decide +kernel) hparent
    have hindex : (s.indexInParent 2).toOption = some 1 := by decide +kernel
    rw [hk] at hindex
    obtain rfl : k = 1 := Option.some.inj hindex
    obtain rfl : .literal 2 ⟨['a'], rfl⟩ = f := Option.some.inj hf
    rw [hchild] at hcompares
    exact ⟨cs, hcs, hcompares⟩

end Store

end Rearrange
