import Mathlib.Data.List.MinMax
import Mathlib.Tactic.Common

/-! Loops that keep the first element with the greatest key so far, and `List.argmax`. -/

namespace Yjc.RunningMax
variable {α β : Type*} (key : α → ℕ)

def larger : Option α → Option α → Option α
  | none, b => b
  | some a, none => some a
  | some a, some b => if key a < key b then some b else some a

/-- The element `c` replaces the one that is kept if it is admitted and has a greater key. -/
def pick (p : α → Prop) [DecidablePred p] (kept : Option α) (c : α) : Option α := if p c ∧ ∀ a ∈ kept, key a < key c then some c else kept

variable {key} {p : α → Prop} [DecidablePred p] {kept : Option α} {l l' : List α} {a b c : Option α}

theorem larger_none (a : Option α) : larger key a none = a := by cases a <;> rfl

theorem larger_some (x y : α) : larger key (some x) (some y) = if key x < key y then some y else some x := rfl

theorem larger_assoc : larger key (larger key a b) c = larger key a (larger key b c) := by
  cases a with
  | none => rfl
  | some a =>
    cases b with
    | none => rfl
    | some b =>
      cases c with
      | none => rw [larger_none, larger_none]
      | some c =>
        rw [larger_some, larger_some]
        split_ifs with hab hbc hbc
        · rw [larger_some, larger_some, if_pos hbc, if_pos (hab.trans hbc)]
        · rw [larger_some, larger_some, if_neg hbc, if_pos hab]
        · rw [larger_some]
        · rw [larger_some, larger_some, if_neg hab, if_neg (by omega)]

theorem argmax_cons (x : α) (l : List α) : (x :: l).argmax key = larger key (some x) (l.argmax key) := by
  rw [List.argmax_cons]
  cases l.argmax key <;> rfl

theorem argmax_append : (l ++ l').argmax key = larger key (l.argmax key) (l'.argmax key) := by
  induction l with
  | nil => rfl
  | cons x l ih => rw [List.cons_append, argmax_cons, argmax_cons, ih, larger_assoc]

theorem argmax_flatMap (g : β → List α) (l : List β) : (l.flatMap g).argmax key = (l.filterMap fun x => (g x).argmax key).argmax key := by
  induction l with
  | nil => rfl
  | cons x l ih =>
    rw [List.flatMap_cons, argmax_append, ih, List.filterMap_cons]
    cases (g x).argmax key with
    | none => rfl
    | some a => exact (argmax_cons a _).symm

theorem argmax_filter_pos (l : List α) : (l.filter fun x => 0 < key x).argmax key = (l.argmax key).filter fun x => 0 < key x := by
  -- among the elements with a key that is not zero the best is the same, unless all keys are zero
  induction l with
  | nil => rfl
  | cons x l ih =>
    rw [List.filter_cons, argmax_cons]
    by_cases hx : 0 < key x
    · rw [if_pos (decide_eq_true hx), argmax_cons, ih]
      cases l.argmax key with
      | none => rw [Option.filter_none, larger, Option.filter_some, if_pos (decide_eq_true hx)]
      | some a =>
        rw [larger_some, Option.filter_some]
        by_cases ha : 0 < key a
        · rw [if_pos (decide_eq_true ha), larger_some]
          split_ifs
          · rw [Option.filter_some, if_pos (decide_eq_true ha)]
          · rw [Option.filter_some, if_pos (decide_eq_true hx)]
        · rw [if_neg (by simpa using ha), if_neg (by omega), Option.filter_some, if_pos (decide_eq_true hx)]
          rfl
    · rw [if_neg (by simpa using hx), ih]
      cases l.argmax key with
      | none => rw [Option.filter_none, larger, Option.filter_some, if_neg (by simpa using hx)]
      | some a =>
        rw [larger_some]
        split_ifs with ha
        · rfl
        · rw [Option.filter_some, Option.filter_some, if_neg (by simp only [decide_eq_true_eq]; omega), if_neg (by simpa using hx)]

theorem pick_eq (kept : Option α) (x : α) : pick key p kept x = if p x then larger key kept (some x) else kept := by
  by_cases hp : p x
  · cases kept with
    | none => simp [pick, larger, hp]
    | some a => simp [pick, larger, hp]
  · rw [pick, if_neg fun h => hp h.1, if_neg hp]

theorem foldl_pick (l : List α) (kept : Option α) : l.foldl (pick key p) kept = larger key kept ((l.filter p).argmax key) := by
  induction l generalizing kept with
  | nil => exact (larger_none kept).symm
  | cons x l ih =>
    rw [List.foldl_cons, ih, pick_eq, List.filter_cons]
    by_cases hp : p x
    · rw [if_pos hp, if_pos (decide_eq_true hp), argmax_cons, larger_assoc]
    · rw [if_neg hp, if_neg (by simpa using hp)]

theorem foldlM_eq_some {σ : Type*} {round : σ → α → Option σ} {f : σ → α → σ} (h : ∀ s, ∀ x ∈ l, round s x = some (f s x)) (s : σ) :
    l.foldlM round s = some (l.foldl f s) := by
  induction l generalizing s with
  | nil => rfl
  | cons x l ih =>
    rw [List.foldlM_cons, h s x List.mem_cons_self]
    exact ih (fun s y hy => h s y (List.mem_cons_of_mem x hy)) (f s x)

theorem mapM_eq_some {f : α → Option β} {g : α → β} (h : ∀ x ∈ l, f x = some (g x)) : l.mapM f = some (l.map g) := by
  induction l with
  | nil => rfl
  | cons x l ih =>
    rw [List.mapM_cons, h x List.mem_cons_self, ih fun y hy => h y (List.mem_cons_of_mem x hy)]
    rfl

end Yjc.RunningMax
