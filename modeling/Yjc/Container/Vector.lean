import Yjc.Lib.SwapRemove
import Mathlib.Data.List.ReduceOption
import Mathlib.Tactic.SplitIfs

/-! `container/vector.h`: the slots in use come first, so that a vector is the list of their values. -/

namespace Yjc
open SwapRemove
variable {α : Type*}

/-- The slots that are in use are set and the others are not. -/
structure Vector (α : Type*) where
  index : List (Option α)
  active : ℕ
  count : ℕ
  alloced : 0 < index.length
  shape : ∃ l : List α, ∃ n, index = l.map some ++ List.replicate n none ∧ active = l.length

namespace Vector

/-- The slots are doubled until `num` is one of them. -/
def ensureLoop : ℕ → ℕ → List (Option α) → List (Option α)
  | 0, _, index => index
  | fuel + 1, num, index =>
    if num < index.length then index else ensureLoop fuel num (index ++ List.replicate index.length none)

/-- `vector_empty_slot`. -/
def emptySlot (index : List (Option α)) (active count : ℕ) : ℕ :=
  if active = count then active
  else if active = 0 then 0
  else (index.take active).findIdx Option.isNone

theorem emptySlot_eq (l : List α) (n count : ℕ) :
    emptySlot (l.map some ++ List.replicate n none) l.length count = l.length := by
  unfold emptySlot
  split_ifs with _ hl
  · rfl
  · exact hl.symm
  · have hnone : ∀ x ∈ l.map some, Option.isNone x = false := by
      intro x hx
      obtain ⟨a, -, rfl⟩ := List.mem_map.mp hx
      rfl
    rw [← List.length_map some, List.take_left, List.findIdx_eq_length.mpr hnone]

theorem ensureLoop_eq {l : List α} {n : ℕ} (fuel : ℕ) (hpos : 0 < l.length + n) (hfuel : 1 < fuel) :
    ∃ m, ensureLoop fuel l.length (l.map some ++ List.replicate n none) =
      l.map some ++ List.replicate (m + 1) none := by
  have hlen : ∀ m, (l.map some ++ List.replicate m none).length = l.length + m := by
    intro m
    rw [List.length_append, List.length_map, List.length_replicate]
  match fuel, hfuel with
  | fuel + 2, _ =>
    unfold ensureLoop
    rw [hlen]
    split_ifs with h
    · exact ⟨n - 1, by rw [Nat.sub_add_cancel (by omega)]⟩
    · unfold ensureLoop
      rw [List.append_assoc, ← List.replicate_add, hlen, if_pos (by omega)]
      exact ⟨n + (l.length + n) - 1, by rw [Nat.sub_add_cancel (by omega)]⟩

/-- `vector_set` on the fields. -/
def setSlot (index : List (Option α)) (active count : ℕ) (val : α) : List (Option α) × ℕ × ℕ :=
  let i := emptySlot index active count
  let index := ensureLoop (active + 2) i index
  let count := if (index[i]?).join.isSome then count - 1 else count
  (index.set i (some val), if active ≤ i then i + 1 else active, count + 1)

theorem setSlot_eq {l : List α} {n : ℕ} (hpos : 0 < l.length + n) (count : ℕ) (val : α) :
    ∃ m c, setSlot (l.map some ++ List.replicate n none) l.length count val =
      ((l ++ [val]).map some ++ List.replicate m none, l.length + 1, c) := by
  obtain ⟨m, hm⟩ := ensureLoop_eq (l.length + 2) hpos (by omega)
  unfold setSlot
  rw [emptySlot_eq]
  dsimp only
  rw [hm, if_pos (Nat.le_refl _)]
  refine ⟨m, _, Prod.ext ?_ rfl⟩
  dsimp only
  rw [List.set_append_right _ _ (Nat.le_of_eq (List.length_map _)), List.length_map, Nat.sub_self, List.replicate_succ,
    List.set_cons_zero, List.map_append, List.append_assoc]
  rfl

/-- `graph_vector_remove` on the fields. -/
def removeSlot (index : List (Option α)) (active ix : ℕ) : List (Option α) × ℕ :=
  if active ≤ ix then (index, active)
  else ((index.set ix (index[active - 1]?).join).set (active - 1) none, active - 1)

theorem removeSlot_eq {l : List α} {ix : ℕ} (hix : ix < l.length) (n : ℕ) :
    removeSlot (l.map some ++ List.replicate n none) l.length ix =
      ((swapRemove l ix).map some ++ List.replicate (n + 1) none, l.length - 1) := by
  unfold removeSlot
  rw [if_neg (Nat.not_le.mpr hix)]
  refine Prod.ext ?_ rfl
  dsimp only
  rcases List.eq_nil_or_concat' l with rfl | ⟨l, last, rfl⟩
  · cases hix
  · rw [List.length_append, List.length_singleton] at hix
    have hget : ((l ++ [last]).map some ++ List.replicate n none)[l.length]? = some (some last) := by
      rw [List.getElem?_append_left (by simp), List.getElem?_map, List.getElem?_concat_length]
      rfl
    rw [List.length_append, List.length_singleton, Nat.add_sub_cancel, hget, swapRemove_append, List.replicate_succ]
    change List.set (List.set _ ix (some last)) _ _ = _
    rw [List.map_append, List.append_assoc]
    rcases Nat.lt_or_ge ix l.length with hlt | hge
    · rw [List.set_append_left _ _ (by rw [List.length_map]; exact hlt), ← List.map_set,
        List.set_append_right _ _ (by simp)]
      simp
    · have heq : ix = l.length := by omega
      rw [heq, List.set_set, List.set_append_right _ _ (by simp), List.set_eq_of_length_le (Nat.le_refl _)]
      simp

def init (size : ℕ) : Vector α where
  index := List.replicate (if size = 0 then 1 else size) none
  active := 0
  count := 0
  alloced := by
    rw [List.length_replicate]
    split_ifs <;> omega
  shape := ⟨[], _, rfl, rfl⟩

/-- `vector_slot`; a slot that is not set is a null pointer. -/
def slot (v : Vector α) (i : ℕ) : Option α := (v.index[i]?).join

def set (v : Vector α) (val : α) : Vector α where
  index := (setSlot v.index v.active v.count val).1
  active := (setSlot v.index v.active v.count val).2.1
  count := (setSlot v.index v.active v.count val).2.2
  alloced := by
    obtain ⟨l, n, hindex, hactive⟩ := v.shape
    have hpos := v.alloced
    rw [hindex, List.length_append, List.length_map, List.length_replicate] at hpos
    obtain ⟨m, c, heq⟩ := setSlot_eq hpos v.count val
    rw [hindex, hactive, heq, List.length_append, List.length_map, List.length_append, List.length_singleton]
    omega
  shape := by
    obtain ⟨l, n, hindex, hactive⟩ := v.shape
    have hpos := v.alloced
    rw [hindex, List.length_append, List.length_map, List.length_replicate] at hpos
    obtain ⟨m, c, heq⟩ := setSlot_eq hpos v.count val
    rw [hindex, hactive, heq]
    exact ⟨l ++ [val], m, rfl, by rw [List.length_append, List.length_singleton]⟩

/-- `graph_vector_remove`. -/
def remove (v : Vector α) (ix : ℕ) : Vector α where
  index := (removeSlot v.index v.active ix).1
  active := (removeSlot v.index v.active ix).2
  count := v.count
  alloced := by
    unfold removeSlot
    split_ifs
    · exact v.alloced
    · rw [List.length_set, List.length_set]
      exact v.alloced
  shape := by
    obtain ⟨l, n, hindex, hactive⟩ := v.shape
    rw [hindex, hactive]
    rcases Nat.lt_or_ge ix l.length with hlt | hge
    · rw [removeSlot_eq hlt]
      exact ⟨_, _, rfl, (length_swapRemove l ix).symm⟩
    · rw [removeSlot, if_pos hge]
      exact ⟨l, n, rfl, rfl⟩

def map {β : Type*} (f : α → β) (v : Vector α) : Vector β where
  index := v.index.map (Option.map f)
  active := v.active
  count := v.count
  alloced := by
    rw [List.length_map]
    exact v.alloced
  shape := by
    obtain ⟨l, n, hindex, hactive⟩ := v.shape
    refine ⟨l.map f, n, ?_, by rw [List.length_map, hactive]⟩
    rw [hindex, List.map_append, List.map_map, List.map_map, List.map_replicate]
    rfl

/-! ## The list of a vector -/

def elts (v : Vector α) : List α := v.index.reduceOption

theorem elts_of_index {v : Vector α} {l : List α} {n : ℕ} (h : v.index = l.map some ++ List.replicate n none) :
    v.elts = l := by
  rw [elts, h, List.reduceOption_append, List.reduceOption_replicate_none, List.append_nil]
  exact (List.filterMap_map ..).trans (List.filterMap_some ..)

variable (v : Vector α)

theorem index_eq : ∃ n, v.index = v.elts.map some ++ List.replicate n none ∧ v.active = v.elts.length := by
  obtain ⟨l, n, hindex, hactive⟩ := v.shape
  rw [elts_of_index hindex]
  exact ⟨n, hindex, hactive⟩

theorem active_eq : v.active = v.elts.length := by
  obtain ⟨n, -, hactive⟩ := v.index_eq
  exact hactive

theorem slot_eq (i : ℕ) : v.slot i = v.elts[i]? := by
  obtain ⟨n, hindex, -⟩ := v.index_eq
  rw [slot, hindex]
  rcases Nat.lt_or_ge i v.elts.length with hlt | hge
  · rw [List.getElem?_append_left (by rw [List.length_map]; exact hlt), List.getElem?_map, List.getElem?_eq_getElem hlt]
    rfl
  · rw [List.getElem?_append_right (by rw [List.length_map]; exact hge), List.getElem?_eq_none hge,
      List.getElem?_replicate]
    split_ifs <;> rfl

@[simp] theorem elts_init (size : ℕ) : (init size : Vector α).elts = [] := elts_of_index rfl

@[simp] theorem elts_set (val : α) : (v.set val).elts = v.elts ++ [val] := by
  obtain ⟨n, hindex, hactive⟩ := v.index_eq
  have hpos := v.alloced
  rw [hindex, List.length_append, List.length_map, List.length_replicate] at hpos
  obtain ⟨m, c, heq⟩ := setSlot_eq hpos v.count val
  refine elts_of_index (n := m) ?_
  change (setSlot v.index v.active v.count val).1 = _
  rw [hindex, hactive, heq]

theorem elts_remove {ix : ℕ} (hix : ix < v.elts.length) : (v.remove ix).elts = swapRemove v.elts ix := by
  obtain ⟨n, hindex, hactive⟩ := v.index_eq
  refine elts_of_index (n := n + 1) ?_
  change (removeSlot v.index v.active ix).1 = _
  rw [hindex, hactive, removeSlot_eq hix]

theorem elts_map {β : Type*} (f : α → β) : (v.map f).elts = v.elts.map f := by
  obtain ⟨n, hindex, -⟩ := v.index_eq
  refine elts_of_index (n := n) ?_
  change v.index.map (Option.map f) = _
  rw [hindex, List.map_append, List.map_map, List.map_map, List.map_replicate]
  rfl

end Vector
end Yjc
