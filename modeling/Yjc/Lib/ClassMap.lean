import Mathlib.Data.List.Perm.Basic
import Mathlib.Tactic.Common
import Mathlib.Tactic.SplitIfs

/-! Maps from the classes of an equivalence to one of their items, and lists of items that hold them. -/

namespace Yjc.ClassMap
variable {α : Type*} {eq : α → α → Bool} {m : α → Option α} {l l' : List α} {a b x y : α}

structure Equivalence (eq : α → α → Bool) : Prop where
  refl : ∀ a, eq a a = true
  symm : ∀ {a b}, eq a b = true → eq b a = true
  trans : ∀ {a b c}, eq a b = true → eq b c = true → eq a c = true

def put (eq : α → α → Bool) (x : α) (m : α → Option α) : α → Option α := fun d => if eq x d then some x else m d

def drop (eq : α → α → Bool) (x : α) (m : α → Option α) : α → Option α := fun d => if eq x d then none else m d

/-- The list holds the items of the map, none of a class twice. -/
structure Holds (eq : α → α → Bool) (m : α → Option α) (l : List α) : Prop where
  iff : ∀ d x, m d = some x ↔ x ∈ l ∧ eq x d = true
  distinct : l.Pairwise fun a b => eq a b = false

theorem holds_nil : Holds eq (fun _ => none) [] := ⟨fun d x => by simp, List.Pairwise.nil⟩

theorem Holds.eq_none (h : Holds eq m l) : m a = none ↔ ∀ x ∈ l, eq x a = false := by
  rw [Option.eq_none_iff_forall_ne_some]
  refine forall_congr' fun x => ?_
  rw [Ne, h.iff, not_and, Bool.not_eq_true]

theorem eq_false_comm (he : Equivalence eq) (h : eq a b = false) : eq b a = false := by
  cases hba : eq b a with
  | false => rfl
  | true =>
    rw [he.symm hba] at h
    cases h

theorem Holds.perm (he : Equivalence eq) (h : Holds eq m l) (hp : l'.Perm l) : Holds eq m l' := by
  refine ⟨fun d x => ?_, ?_⟩
  · rw [hp.mem_iff, h.iff]
  · exact (hp.pairwise_iff fun {a b} hab => eq_false_comm he hab).mpr h.distinct

theorem Holds.put (he : Equivalence eq) (h : Holds eq m l) (ha : m a = none) (hx : eq x a = true) :
    Holds eq (put eq x m) (x :: l) := by
  have hnew : ∀ y ∈ l, eq x y = false := by
    intro y hy
    cases hxy : eq x y with
    | false => rfl
    | true =>
      have := h.eq_none.mp ha y hy
      rw [he.trans (he.symm hxy) hx] at this
      cases this
  refine ⟨fun d y => ?_, List.pairwise_cons.mpr ⟨hnew, h.distinct⟩⟩
  rw [List.mem_cons, ClassMap.put]
  by_cases hd : eq x d = true
  · rw [if_pos hd, Option.some.injEq]
    constructor
    · rintro rfl
      exact ⟨.inl rfl, hd⟩
    · rintro ⟨rfl | hy, hyd⟩
      · rfl
      · have := hnew y hy
        rw [he.trans hd (he.symm hyd)] at this
        cases this
  · rw [if_neg hd, h.iff]
    constructor
    · rintro ⟨hy, hyd⟩
      exact ⟨.inr hy, hyd⟩
    · rintro ⟨rfl | hy, hyd⟩
      · exact absurd hyd hd
      · exact ⟨hy, hyd⟩

theorem Holds.drop (he : Equivalence eq) (h : Holds eq m (x :: l)) (hx : eq x a = true) : Holds eq (drop eq a m) l := by
  obtain ⟨hdistinct, hl⟩ := List.pairwise_cons.mp h.distinct
  refine ⟨fun d y => ?_, hl⟩
  rw [ClassMap.drop]
  by_cases hd : eq a d = true
  · rw [if_pos hd]
    refine iff_of_false (by simp) ?_
    rintro ⟨hy, hyd⟩
    have := hdistinct y hy
    rw [he.trans hx (he.trans hd (he.symm hyd))] at this
    cases this
  · rw [if_neg hd, h.iff, List.mem_cons]
    constructor
    · rintro ⟨rfl | hy, hyd⟩
      · exact absurd (he.trans (he.symm hx) hyd) hd
      · exact ⟨hy, hyd⟩
    · rintro ⟨hy, hyd⟩
      exact ⟨.inr hy, hyd⟩

theorem Holds.drop_none (he : Equivalence eq) (h : Holds eq m l) (ha : m a = none) : Holds eq (ClassMap.drop eq a m) l := by
  refine ⟨fun d y => ?_, h.distinct⟩
  rw [ClassMap.drop]
  by_cases hd : eq a d = true
  · rw [if_pos hd]
    refine iff_of_false (by simp) ?_
    rintro ⟨hy, hyd⟩
    have := h.eq_none.mp ha y hy
    rw [he.trans hyd (he.symm hd)] at this
    cases this
  · rw [if_neg hd, h.iff]

theorem put_drop : ClassMap.put eq x (ClassMap.drop eq x m) = ClassMap.put eq x m := by
  funext d
  rw [ClassMap.put, ClassMap.put, ClassMap.drop]
  split_ifs <;> rfl

theorem Holds.replace (he : Equivalence eq) (h : Holds eq m (y :: l)) (hxy : eq y x = true) :
    Holds eq (ClassMap.put eq x m) (x :: l) := by
  have hnone : ClassMap.drop eq x m x = none := if_pos (he.refl x)
  have := Holds.put he (h.drop he hxy) hnone (he.refl x)
  rwa [put_drop] at this

end Yjc.ClassMap
