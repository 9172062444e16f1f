import Rearrange.Proofs.Store.Relink

namespace Rearrange.Store

variable {s : Store}

@[simp] theorem content_setHandle (s : Store) (id : NodeId) (h : Option Handle) (other : NodeId) :
    ((s.setHandle id h).cell other).content = (s.cell other).content := by
  rw [setHandle, cell_modify]
  split <;> rfl

@[simp] theorem parent_setHandle (s : Store) (id : NodeId) (h : Option Handle) (other : NodeId) :
    (s.setHandle id h).parent other = s.parent other := by
  rw [parent, setHandle, cell_modify]
  split <;> rfl

theorem handle_setHandle_self {id : NodeId} (h : Option Handle) (hid : id < s.size) :
    (s.setHandle id h).handle id = h := by
  rw [handle, setHandle, cell_modify_self hid]

theorem handle_setHandle_of_ne {id other : NodeId} (h : Option Handle) (hne : other ≠ id) :
    (s.setHandle id h).handle other = s.handle other := by
  rw [handle, setHandle, cell_modify_of_ne hne, handle]

@[simp] theorem size_setHandle (s : Store) (id : NodeId) (h : Option Handle) :
    (s.setHandle id h).size = s.size :=
  size_modify s id _

@[simp] theorem size_numberAll (s : Store) (start : Int) (ids : List NodeId) :
    (s.numberAll start ids).size = s.size := by
  induction ids generalizing s start with
  | nil => rfl
  | cons id ids ih => rw [numberAll, ih, size_setHandle]

@[simp] theorem content_numberAll (s : Store) (start : Int) (ids : List NodeId) (other : NodeId) :
    ((s.numberAll start ids).cell other).content = (s.cell other).content := by
  induction ids generalizing s start with
  | nil => rfl
  | cons id ids ih => rw [numberAll, ih, content_setHandle]

@[simp] theorem parent_numberAll (s : Store) (start : Int) (ids : List NodeId) (other : NodeId) :
    (s.numberAll start ids).parent other = s.parent other := by
  induction ids generalizing s start with
  | nil => rfl
  | cons id ids ih => rw [numberAll, ih, parent_setHandle]

theorem cell_numberAll_of_notMem {ids : List NodeId} {other : NodeId} (start : Int)
    (hother : other ∉ ids) : (s.numberAll start ids).cell other = s.cell other := by
  induction ids generalizing s start with
  | nil => rfl
  | cons id ids ih =>
    rw [List.mem_cons, not_or] at hother
    rw [numberAll, ih _ hother.2, setHandle, cell_modify_of_ne hother.1]

theorem handle_numberAll_of_notMem {ids : List NodeId} {other : NodeId} (start : Int)
    (hother : other ∉ ids) : (s.numberAll start ids).handle other = s.handle other := by
  rw [handle, cell_numberAll_of_notMem start hother, handle]

/-- Of different nodes the one at a position gets the number that lies so far after the first. -/
theorem map_handle_numberAll {ids : List NodeId} (start : Int) (hnodup : ids.Nodup)
    (hids : ∀ id ∈ ids, id < s.size) :
    ids.map (s.numberAll start ids).handle =
      (List.range ids.length).map fun i : Nat => some (.integer (start + i)) := by
  induction ids generalizing s start with
  | nil => rfl
  | cons id ids ih =>
    obtain ⟨hid, hids⟩ := List.forall_mem_cons.mp hids
    obtain ⟨hout, hnodup⟩ := List.nodup_cons.mp hnodup
    have hfirst : (s.numberAll start (id :: ids)).handle id = some (.integer start) := by
      rw [numberAll, handle_numberAll_of_notMem _ hout, handle_setHandle_self _ hid]
    have hrest := ih (s := s.setHandle id (some (.integer start))) (start + 1) hnodup
      (by simpa using hids)
    rw [← numberAll] at hrest
    rw [List.map_cons, hfirst, hrest, List.length_cons, List.range_succ_eq_map, List.map_cons,
      List.map_map]
    refine congrArg₂ List.cons (by simp) (List.map_congr_left fun i _ => ?_)
    have hsum : start + 1 + (i : Int) = start + (i.succ : Int) := by omega
    rw [hsum, Function.comp_apply]

/-- The handles that a numbering of different nodes gives out are different numbers. -/
theorem nodup_map_handle_numberAll {ids : List NodeId} (start : Int) (hnodup : ids.Nodup)
    (hids : ∀ id ∈ ids, id < s.size) : (ids.map (s.numberAll start ids).handle).Nodup := by
  rw [map_handle_numberAll start hnodup hids]
  refine List.nodup_range.map fun i j hij => ?_
  injection Option.some.inj hij with hsum
  omega

/-- The numbers given out start where they are told to and are as many as there are nodes. -/
theorem exists_handle_numberAll {ids : List NodeId} (start : Int) (hnodup : ids.Nodup)
    (hids : ∀ id ∈ ids, id < s.size) {id : NodeId} (hid : id ∈ ids) :
    ∃ n : Int, (s.numberAll start ids).handle id = some (.integer n) ∧
      start ≤ n ∧ n < start + ids.length := by
  have hmem := List.mem_map_of_mem (f := (s.numberAll start ids).handle) hid
  rw [map_handle_numberAll start hnodup hids] at hmem
  obtain ⟨i, hi, hhandle⟩ := List.mem_map.mp hmem
  rw [List.mem_range] at hi
  exact ⟨start + i, hhandle.symm, by omega, by omega⟩

/-- Numbering leaves owned trees owned. -/
theorem Owns.number {t : Tree NodeId} (h : s.Owns t) (id : NodeId) (start : Int) :
    (s.number id start).Owns t := by
  have hsize : (s.number id start).size = s.size := size_numberAll s start _
  refine h.congr (Nat.le_of_eq hsize.symm) (fun other _ => ?_) fun other _ => ?_
  · exact content_numberAll s start _ other
  · exact parent_numberAll s start _ other

end Rearrange.Store
