import Mathlib.Data.List.Perm.Basic

/-! Deletion from an array that moves the last element into the hole. -/

namespace Yjc.SwapRemove
variable {α : Type*}

def swapRemove (l : List α) (i : ℕ) : List α :=
  match l.getLast? with
  | none => []
  | some last => l.dropLast.set i last

theorem swapRemove_append (l : List α) (last : α) (i : ℕ) : swapRemove (l ++ [last]) i = l.set i last := by
  rw [swapRemove, List.getLast?_concat, List.dropLast_concat]

@[simp] theorem length_swapRemove (l : List α) (i : ℕ) : (swapRemove l i).length = l.length - 1 := by
  rcases List.eq_nil_or_concat' l with rfl | ⟨l, last, rfl⟩
  · rfl
  · rw [swapRemove_append, List.length_set, List.length_append, List.length_singleton, Nat.add_sub_cancel]

theorem getElem?_swapRemove_self {l : List α} {i : ℕ} (h : i + 1 < l.length) :
    (swapRemove l i)[i]? = l[l.length - 1]? := by
  rcases List.eq_nil_or_concat' l with rfl | ⟨l, last, rfl⟩
  · cases h
  · rw [List.length_append, List.length_singleton] at h ⊢
    rw [swapRemove_append, List.getElem?_set_self (Nat.lt_of_succ_lt_succ h), Nat.add_sub_cancel, List.getElem?_concat_length]

theorem getElem?_swapRemove_of_ne {l : List α} {i j : ℕ} (hne : j ≠ i) (h : j + 1 < l.length) :
    (swapRemove l i)[j]? = l[j]? := by
  rcases List.eq_nil_or_concat' l with rfl | ⟨l, last, rfl⟩
  · cases h
  · rw [List.length_append, List.length_singleton] at h
    rw [swapRemove_append, List.getElem?_set_ne hne.symm, List.getElem?_append_left (Nat.lt_of_succ_lt_succ h)]

theorem swapRemove_set {l : List α} {i : ℕ} (h : i < l.length) (x : α) : swapRemove (l.set i x) i = swapRemove l i := by
  rcases List.eq_nil_or_concat' l with rfl | ⟨l, last, rfl⟩
  · cases h
  · rw [List.length_append, List.length_singleton] at h
    rw [swapRemove_append]
    rcases Nat.lt_or_ge i l.length with hlt | hge
    · rw [List.set_append_left _ _ hlt, swapRemove_append, List.set_set]
    · have hlen : i = l.length := by omega
      rw [hlen, List.set_append_right _ _ (Nat.le_refl _), Nat.sub_self, List.set_cons_zero, swapRemove_append,
        List.set_eq_of_length_le (Nat.le_refl _), List.set_eq_of_length_le (Nat.le_refl _)]

theorem perm_swapRemove {l : List α} {i : ℕ} {x : α} (h : l[i]? = some x) : (x :: swapRemove l i).Perm l := by
  obtain ⟨hi, rfl⟩ := List.getElem?_eq_some_iff.mp h
  rcases List.eq_nil_or_concat' l with rfl | ⟨l, last, rfl⟩
  · cases hi
  · rw [swapRemove_append]
    rcases Nat.lt_or_ge i l.length with hlt | hge
    · rw [List.getElem_append_left hlt]
      calc (l[i] :: l.set i last).Perm (l[i] :: last :: l.eraseIdx i) := (List.set_perm_cons_eraseIdx hlt last).cons _
        List.Perm _ (last :: l[i] :: l.eraseIdx i) := List.Perm.swap ..
        List.Perm _ (last :: l) := (List.getElem_cons_eraseIdx_perm hlt).cons _
        List.Perm _ (l ++ [last]) := (List.perm_append_singleton last l).symm
    · rw [List.set_eq_of_length_le hge]
      have hlen : i = l.length := by
        rw [List.length_append, List.length_singleton] at hi
        omega
      subst hlen
      rw [List.getElem_concat_length rfl]
      exact (List.perm_append_singleton last l).symm

theorem take_swapRemove {l : List α} {i : ℕ} (h : i < l.length) : (swapRemove l i).take i = l.take i := by
  rcases List.eq_nil_or_concat' l with rfl | ⟨l, last, rfl⟩
  · cases h
  · rw [List.length_append, List.length_singleton] at h
    rw [swapRemove_append, List.take_set_of_le (Nat.le_refl i), List.take_append_of_le_length (Nat.le_of_lt_succ h)]

theorem perm_drop_swapRemove {l : List α} {i : ℕ} (h : i < l.length) : ((swapRemove l i).drop i).Perm (l.drop (i + 1)) := by
  have hperm := perm_swapRemove (List.getElem?_eq_getElem h)
  rw [← List.take_append_drop i (swapRemove l i), take_swapRemove h] at hperm
  have hl : (l[i] :: (l.take i ++ l.drop (i + 1))).Perm l := by
    have hmid : (l[i] :: (l.take i ++ l.drop (i + 1))).Perm (l.take i ++ l[i] :: l.drop (i + 1)) := List.perm_middle.symm
    rwa [List.getElem_cons_drop, List.take_append_drop] at hmid
  exact (List.perm_append_left_iff _).mp ((List.perm_cons _).mp (hperm.trans hl.symm))

end Yjc.SwapRemove
