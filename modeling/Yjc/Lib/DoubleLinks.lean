import Yjc.Lib.Links
import Mathlib.Data.List.Nodup
import Mathlib.Data.Nat.Basic
import Mathlib.Tactic.SplitIfs

/-! Lists that are linked both ways. -/

namespace Yjc.Links
variable {α : Type*} {next prev next' prev' : α → Option α} {l : List α} {i : ℕ} {x : α}

/-- What stands before position `i`. -/
def pred (l : List α) (i : ℕ) : Option α := if i = 0 then none else l[i - 1]?

@[simp]
theorem pred_zero : pred l 0 = none := rfl

@[simp]
theorem pred_succ : pred l (i + 1) = l[i]? := rfl

/-- Every cell of `l` is linked to the one after and the one before it. -/
structure Linked (next prev : α → Option α) (l : List α) : Prop where
  nodup : l.Nodup
  next : ∀ i a, l[i]? = some a → next a = l[i + 1]?
  prev : ∀ i a, l[i]? = some a → prev a = pred l i

theorem linked_nil : Linked next prev [] :=
  ⟨List.nodup_nil, fun i a h => by simp at h, fun i a h => by simp at h⟩

theorem Nodup.index_eq (h : l.Nodup) {i j : ℕ} {a : α} (hi : l[i]? = some a) (hj : l[j]? = some a) : i = j := by
  obtain ⟨hi, rfl⟩ := List.getElem?_eq_some_iff.mp hi
  obtain ⟨hj, hij⟩ := List.getElem?_eq_some_iff.mp hj
  exact (h.getElem_inj_iff.mp hij).symm

theorem pred_eq_some (h : l.Nodup) {i j : ℕ} {a : α} (hj : l[j]? = some a) : pred l i = some a ↔ i = j + 1 := by
  cases i with
  | zero => simp
  | succ i =>
    rw [pred_succ, Nat.add_right_cancel_iff]
    constructor
    · intro hi
      exact Nodup.index_eq h hi hj
    · rintro rfl
      exact hj

theorem getElem?_eq_some (h : l.Nodup) {i j : ℕ} {a : α} (hj : l[j]? = some a) : l[i]? = some a ↔ i = j :=
  ⟨fun hi => Nodup.index_eq h hi hj, fun hij => hij ▸ hj⟩

theorem pred_insertIdx_of_le {j : ℕ} (hj : j ≤ i) : pred (l.insertIdx i x) j = pred l j := by
  cases j with
  | zero => rfl
  | succ j => rw [pred_succ, pred_succ, List.getElem?_insertIdx_of_lt hj]

theorem pred_eq_none (hi : i ≤ l.length) : pred l i = none ↔ i = 0 := by
  cases i with
  | zero => simp
  | succ i => simp [Nat.not_le.mpr hi]

theorem pred_length : pred l l.length = l.getLast? := by
  cases l with
  | nil => rfl
  | cons a l => rw [List.getLast?_eq_getElem?, List.length_cons, pred_succ, Nat.add_sub_cancel]

theorem head?_insertIdx : (l.insertIdx i x).head? = if i = 0 then some x else l.head? := by
  cases i with
  | zero => simp
  | succ i => rw [List.head?_eq_getElem?, List.getElem?_insertIdx_of_lt (Nat.succ_pos i), if_neg i.succ_ne_zero, List.head?_eq_getElem?]

theorem getLast?_insertIdx (hi : i ≤ l.length) :
    (l.insertIdx i x).getLast? = if i = l.length then some x else l.getLast? := by
  rw [List.getLast?_eq_getElem?, List.length_insertIdx_of_le_length hi, Nat.add_sub_cancel]
  split_ifs with heq
  · rw [heq, List.getElem?_insertIdx_self, if_pos le_rfl]
  · rw [List.getElem?_insertIdx_of_gt (by omega), List.getLast?_eq_getElem?]

theorem Linked.insert [DecidableEq α] (h : Linked next prev l) (hx : x ∉ l) (hi : i ≤ l.length)
    (hnx : next' x = l[i]?) (hpx : prev' x = pred l i)
    (hn : ∀ a ∈ l, next' a = if pred l i = some a then some x else next a)
    (hp : ∀ a ∈ l, prev' a = if l[i]? = some a then some x else prev a) : Linked next' prev' (l.insertIdx i x) := by
  have hbelow : ∀ j, j < i → (l.insertIdx i x)[j]? = l[j]? := fun j hj => List.getElem?_insertIdx_of_lt hj
  have hself : (l.insertIdx i x)[i]? = some x := by rw [List.getElem?_insertIdx_self, if_pos hi]
  have habove : ∀ j, i ≤ j → (l.insertIdx i x)[j + 1]? = l[j]? := fun j hj =>
    List.getElem?_insertIdx_of_gt (Nat.lt_succ_of_le hj)
  have hcell : ∀ j a, (l.insertIdx i x)[j]? = some a →
      (j < i ∧ l[j]? = some a) ∨ (j = i ∧ a = x) ∨ ∃ k, j = k + 1 ∧ i ≤ k ∧ l[k]? = some a := by
    intro j a hj
    rcases lt_trichotomy j i with hlt | rfl | hgt
    · exact .inl ⟨hlt, hbelow j hlt ▸ hj⟩
    · rw [hself] at hj
      exact .inr (.inl ⟨rfl, (Option.some.inj hj).symm⟩)
    · obtain ⟨k, rfl⟩ : ∃ k, j = k + 1 := ⟨j - 1, by omega⟩
      exact .inr (.inr ⟨k, rfl, by omega, habove k (by omega) ▸ hj⟩)
  refine ⟨?_, ?_, ?_⟩
  · exact (List.perm_insertIdx x l hi).nodup_iff.mpr (List.nodup_cons.mpr ⟨hx, h.nodup⟩)
  · intro j a hj
    obtain ⟨hlt, hj⟩ | ⟨rfl, rfl⟩ | ⟨k, rfl, hk, hj⟩ := hcell j a hj
    · simp only [hn a (List.mem_of_getElem? hj), pred_eq_some h.nodup hj]
      split_ifs with heq
      · rw [← heq, hself]
      · rw [h.next j a hj, hbelow (j + 1) (by omega)]
    · rw [hnx, habove j le_rfl]
    · simp only [hn a (List.mem_of_getElem? hj), pred_eq_some h.nodup hj]
      rw [if_neg (by omega), h.next k a hj, habove (k + 1) (by omega)]
  · intro j a hj
    obtain ⟨hlt, hj⟩ | ⟨rfl, rfl⟩ | ⟨k, rfl, hk, hj⟩ := hcell j a hj
    · simp only [hp a (List.mem_of_getElem? hj), getElem?_eq_some h.nodup hj]
      rw [if_neg (by omega), h.prev j a hj, pred_insertIdx_of_le (Nat.le_of_lt hlt)]
    · rw [hpx, pred_insertIdx_of_le le_rfl]
    · simp only [hp a (List.mem_of_getElem? hj), getElem?_eq_some h.nodup hj, pred_succ]
      split_ifs with heq
      · rw [← heq, hself]
      · obtain ⟨m, rfl⟩ : ∃ m, k = m + 1 := ⟨k - 1, by omega⟩
        rw [h.prev (m + 1) a hj, habove m (by omega), pred_succ]

theorem pred_eraseIdx_of_le {j : ℕ} (hj : j ≤ i) : pred (l.eraseIdx i) j = pred l j := by
  cases j with
  | zero => rfl
  | succ j => rw [pred_succ, pred_succ, List.getElem?_eraseIdx_of_lt hj]

theorem head?_eraseIdx : (l.eraseIdx i).head? = if i = 0 then l[1]? else l.head? := by
  cases l with
  | nil => simp
  | cons a l =>
    cases i with
    | zero => simp [List.head?_eq_getElem?]
    | succ i => simp

theorem getLast?_eraseIdx (hi : i < l.length) :
    (l.eraseIdx i).getLast? = if i + 1 = l.length then pred l i else l.getLast? := by
  rw [List.getLast?_eq_getElem?, List.length_eraseIdx_of_lt hi]
  split_ifs with heq
  · cases i with
    | zero => rw [List.getElem?_eq_none (by rw [List.length_eraseIdx_of_lt hi]; omega), pred_zero]
    | succ i => rw [List.getElem?_eraseIdx_of_lt (by omega), pred_succ, ← heq, Nat.add_sub_cancel, Nat.add_sub_cancel]
  · rw [List.getElem?_eraseIdx_of_ge (by omega), List.getLast?_eq_getElem?]
    congr 1
    omega

theorem Linked.erase [DecidableEq α] (h : Linked next prev l) (hx : l[i]? = some x)
    (hn : ∀ a ∈ l, a ≠ x → next' a = if pred l i = some a then l[i + 1]? else next a)
    (hp : ∀ a ∈ l, a ≠ x → prev' a = if l[i + 1]? = some a then pred l i else prev a) :
    Linked next' prev' (l.eraseIdx i) := by
  have hbelow : ∀ j, j < i → (l.eraseIdx i)[j]? = l[j]? := fun j hj => List.getElem?_eraseIdx_of_lt hj
  have habove : ∀ j, i ≤ j → (l.eraseIdx i)[j]? = l[j + 1]? := fun j hj => List.getElem?_eraseIdx_of_ge hj
  have hcell : ∀ j a, (l.eraseIdx i)[j]? = some a →
      (j < i ∧ l[j]? = some a ∧ a ≠ x) ∨ (i ≤ j ∧ l[j + 1]? = some a ∧ a ≠ x) := by
    intro j a hj
    rcases Nat.lt_or_ge j i with hlt | hge
    · rw [hbelow j hlt] at hj
      refine .inl ⟨hlt, hj, ?_⟩
      rintro rfl
      exact absurd (Nodup.index_eq h.nodup hx hj) (by omega)
    · rw [habove j hge] at hj
      refine .inr ⟨hge, hj, ?_⟩
      rintro rfl
      exact absurd (Nodup.index_eq h.nodup hx hj) (by omega)
  refine ⟨h.nodup.sublist (List.eraseIdx_sublist l i), ?_, ?_⟩
  · intro j a hj
    obtain ⟨hlt, hj, hne⟩ | ⟨hge, hj, hne⟩ := hcell j a hj
    · simp only [hn a (List.mem_of_getElem? hj) hne, pred_eq_some h.nodup hj]
      split_ifs with heq
      · rw [habove (j + 1) (by omega), heq]
      · rw [h.next j a hj, hbelow (j + 1) (by omega)]
    · simp only [hn a (List.mem_of_getElem? hj) hne, pred_eq_some h.nodup hj]
      rw [if_neg (by omega), h.next (j + 1) a hj, habove (j + 1) (by omega)]
  · intro j a hj
    obtain ⟨hlt, hj, hne⟩ | ⟨hge, hj, hne⟩ := hcell j a hj
    · simp only [hp a (List.mem_of_getElem? hj) hne, getElem?_eq_some h.nodup hj]
      rw [if_neg (by omega), h.prev j a hj, pred_eraseIdx_of_le (Nat.le_of_lt hlt)]
    · simp only [hp a (List.mem_of_getElem? hj) hne, getElem?_eq_some h.nodup hj]
      split_ifs with heq
      · rw [show j = i by omega, pred_eraseIdx_of_le le_rfl]
      · obtain ⟨m, rfl⟩ : ∃ m, j = m + 1 := ⟨j - 1, by omega⟩
        rw [h.prev (m + 1 + 1) a hj, pred_succ, pred_succ, habove m (by omega)]

/-! ## The two chains -/

theorem spells_drop (h : ∀ i a, l[i]? = some a → next a = l[i + 1]?) (i : ℕ) : Spells next l[i]? (l.drop i) := by
  by_cases hi : i < l.length
  · rw [List.drop_eq_getElem_cons hi, List.getElem?_eq_getElem hi]
    refine ⟨rfl, ?_⟩
    rw [h i _ (List.getElem?_eq_getElem hi)]
    exact spells_drop h (i + 1)
  · rw [List.drop_eq_nil_of_le (Nat.not_lt.mp hi), List.getElem?_eq_none (Nat.not_lt.mp hi)]
    rfl
termination_by l.length - i

theorem Linked.spells (h : Linked next prev l) : Spells next l.head? l := by
  rw [List.head?_eq_getElem?]
  exact spells_drop h.next 0

theorem getElem?_reverse_eq_some {j : ℕ} {a : α} (hj : l.reverse[j]? = some a) :
    ∃ i, i + j + 1 = l.length ∧ l[i]? = some a := by
  have hlt := (List.getElem?_eq_some_iff.mp hj).1
  rw [List.length_reverse] at hlt
  rw [List.getElem?_reverse hlt] at hj
  exact ⟨l.length - 1 - j, by omega, hj⟩

theorem Linked.reverse (h : Linked next prev l) : Linked prev next l.reverse := by
  refine ⟨List.nodup_reverse.mpr h.nodup, ?_, ?_⟩
  · intro j a hj
    obtain ⟨i, hij, hi⟩ := getElem?_reverse_eq_some hj
    rw [h.prev i a hi]
    cases i with
    | zero => rw [List.getElem?_eq_none (by rw [List.length_reverse]; omega), pred_zero]
    | succ i =>
      rw [pred_succ, List.getElem?_reverse (by omega)]
      congr 1
      omega
  · intro j a hj
    obtain ⟨i, hij, hi⟩ := getElem?_reverse_eq_some hj
    rw [h.next i a hi]
    cases j with
    | zero => rw [List.getElem?_eq_none (by omega), pred_zero]
    | succ j =>
      rw [pred_succ, List.getElem?_reverse (by omega)]
      congr 1
      omega

theorem Linked.spells_reverse (h : Linked next prev l) : Spells prev l.getLast? l.reverse := by
  rw [← List.head?_reverse]
  exact h.reverse.spells

end Yjc.Links
