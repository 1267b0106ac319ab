import Mathlib.Data.List.Lex
import Mathlib.Order.Compare
import Yjc.Lib.TotalPreorder

/-! The three-way comparison of a linear order. -/

namespace Yjc.ThreeWay
variable {α : Type*} [LinearOrder α] {a b c : α}

/-- Below, the same, above. -/
def threeWay (a b : α) : ℤ := if a < b then -1 else if b < a then 1 else 0

theorem threeWay_eq_zero : threeWay a b = 0 ↔ a = b := by
  rcases lt_trichotomy a b with h | h | h
  · simp [threeWay, h, h.ne]
  · simp [threeWay, h]
  · simp [threeWay, h, h.not_gt, h.ne']

theorem threeWay_neg : threeWay a b < 0 ↔ a < b := by
  rcases lt_trichotomy a b with h | h | h
  · simp [threeWay, h]
  · simp [threeWay, h]
  · simp [threeWay, h, h.not_gt]

theorem threeWay_lt (h : a < b) : threeWay a b = -1 := if_pos h

theorem threeWay_gt (h : b < a) : threeWay a b = 1 := by rw [threeWay, if_neg h.not_gt, if_pos h]

theorem threeWay_swap (a b : α) : threeWay b a = -threeWay a b := by
  rcases lt_trichotomy a b with h | h | h
  · simp [threeWay, h, h.not_gt]
  · simp [threeWay, h]
  · simp [threeWay, h, h.not_gt]

theorem threeWay_nonpos : threeWay a b ≤ 0 ↔ a ≤ b := by
  rw [← not_lt, ← neg_neg (threeWay a b), ← threeWay_swap, neg_pos, threeWay_neg, not_lt]

theorem totalPreorder_key {δ : Type*} (key : δ → α) : TotalPreorder fun x y => threeWay (key x) (key y) where
  swap x y := by rw [threeWay_swap (key x) (key y), neg_pos]
  trans x y z hxy hyz := threeWay_nonpos.mpr ((threeWay_nonpos.mp hxy).trans (threeWay_nonpos.mp hyz))

theorem threeWay_congr {β : Type*} [LinearOrder β] {x y : β} (h : a < b ↔ x < y) (h' : b < a ↔ y < x) : threeWay a b = threeWay x y := by
  simp only [threeWay, h, h']

variable {s t : List α}

theorem threeWay_cons : threeWay (a :: s) (b :: t) = if a = b then threeWay s t else threeWay a b := by
  by_cases h : a = b
  · subst h
    rw [if_pos rfl]
    exact threeWay_congr (by simp) (by simp)
  · rw [if_neg h]
    exact threeWay_congr (by simp [List.cons_lt_cons_iff, h]) (by simp [List.cons_lt_cons_iff, Ne.symm h])

theorem threeWay_singleton : threeWay [a] [b] = threeWay a b := by
  rw [threeWay_cons]
  by_cases h : a = b
  · rw [if_pos h, threeWay_eq_zero.mpr rfl, threeWay_eq_zero.mpr h]
  · rw [if_neg h]

theorem threeWay_append {s' t' : List α} (h : s.length = s'.length) :
    threeWay (s ++ t) (s' ++ t') = if s = s' then threeWay t t' else threeWay s s' := by
  induction s generalizing s' with
  | nil => rw [List.length_eq_zero_iff.mp h.symm, List.nil_append, List.nil_append, if_pos rfl]
  | cons a s ih =>
    cases s' with
    | nil => cases h
    | cons b s' =>
      rw [List.cons_append, List.cons_append, threeWay_cons, threeWay_cons, ih (Nat.succ.inj h)]
      by_cases hab : a = b
      · simp only [hab, if_true, List.cons_eq_cons, true_and]
      · simp only [hab, if_false, List.cons_eq_cons, false_and]

end Yjc.ThreeWay
