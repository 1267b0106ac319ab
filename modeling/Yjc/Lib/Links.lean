import Mathlib.Tactic.Common
import Mathlib.Data.List.Basic

/-! Lists that are linked through memory: `next` is the link of a cell. -/

namespace Yjc.Links
variable {α : Type*} {next n : α → Option α} {p : Option α} {l : List α} {a b : α}

/-- The links from `p` on go through the cells of `l` and end. -/
def Spells (next : α → Option α) : Option α → List α → Prop
  | p, [] => p = none
  | p, a :: l => p = some a ∧ Spells next (next a) l

/-- The links from `p` on come to a cell. -/
inductive Reaches (next : α → Option α) : Option α → α → Prop
  | here (a : α) : Reaches next (some a) a
  | there {a b : α} (h : Reaches next (next a) b) : Reaches next (some a) b

theorem Spells.reaches_iff (h : Spells next p l) : Reaches next p b ↔ b ∈ l := by
  induction l generalizing p with
  | nil =>
    cases h
    refine iff_of_false ?_ List.not_mem_nil
    rintro ⟨⟩
  | cons a l ih =>
    obtain ⟨rfl, h⟩ := h
    rw [List.mem_cons]
    constructor
    · rintro (_ | hb)
      · exact .inl rfl
      · exact .inr ((ih h).mp hb)
    · rintro (rfl | hb)
      · exact .here b
      · exact .there ((ih h).mpr hb)

theorem Spells.congr (h : Spells next p l) (hnext : ∀ a ∈ l, n a = next a) : Spells n p l := by
  induction l generalizing p with
  | nil => exact h
  | cons a l ih =>
    refine ⟨h.1, ?_⟩
    rw [hnext a List.mem_cons_self]
    exact ih h.2 fun b hb => hnext b (List.mem_cons_of_mem a hb)

theorem spells_none : Spells next none l ↔ l = [] := by
  cases l with
  | nil => exact ⟨fun _ => rfl, fun _ => rfl⟩
  | cons a l => exact iff_of_false (fun h => by cases h.1) fun h => by cases h

theorem Spells.of_some (h : Spells next (some a) l) : ∃ l', l = a :: l' ∧ Spells next (next a) l' := by
  cases l with
  | nil => cases h
  | cons b l =>
    obtain ⟨hb, h⟩ := h
    cases hb
    exact ⟨l, rfl, h⟩

/-- The cells that `n` links from `p` on go through. -/
def chain (next : α → Option α) : ℕ → Option α → List α
  | 0, _ => []
  | _ + 1, none => []
  | n + 1, some a => a :: chain next n (next a)

theorem Spells.chain_eq (h : Spells next p l) : chain next l.length p = l := by
  induction l generalizing p with
  | nil => rfl
  | cons a l ih =>
    obtain ⟨rfl, h⟩ := h
    exact congrArg (a :: ·) (ih h)

/-! ## Lists that begin at a cell of their own -/

variable {h x : α} {xs ys : List α}

def lastOr (h : α) (l : List α) : α := l.getLast?.getD h

@[simp]
theorem lastOr_nil : lastOr h [] = h := rfl

theorem lastOr_append : lastOr h (xs ++ ys) = lastOr (lastOr h xs) ys := by
  unfold lastOr
  rw [List.getLast?_append]
  cases ys.getLast? <;> rfl

@[simp]
theorem lastOr_concat : lastOr h (xs ++ [x]) = x := by
  rw [lastOr_append]
  rfl

theorem lastOr_cons : lastOr h (x :: xs) = lastOr x xs := by
  rw [← List.singleton_append, lastOr_append]
  rfl

theorem lastOr_mem (h : α) (l : List α) : lastOr h l ∈ h :: l := by
  rcases List.eq_nil_or_concat' l with rfl | ⟨l, a, rfl⟩
  · exact List.mem_cons_self
  · rw [lastOr_concat]
    exact List.mem_cons_of_mem _ (List.mem_append_right _ List.mem_cons_self)

theorem getLast?_eq_lastOr [DecidableEq α] (hl : h ∉ l) : (if lastOr h l = h then none else some (lastOr h l)) = l.getLast? := by
  rcases List.eq_nil_or_concat' l with rfl | ⟨l, a, rfl⟩
  · exact if_pos rfl
  · rw [lastOr_concat, List.getLast?_append, if_neg]
    · rfl
    · rintro rfl
      exact hl (List.mem_append_right _ List.mem_cons_self)

theorem Spells.after (hs : Spells next (next h) (xs ++ ys)) : Spells next (next (lastOr h xs)) ys := by
  induction xs generalizing h with
  | nil => exact hs
  | cons a xs ih =>
    obtain ⟨ha, hs⟩ := hs
    rw [lastOr_cons]
    exact ih hs

theorem Spells.link (hs : Spells next (next h) (xs ++ ys)) (hnodup : (h :: xs ++ ys).Nodup) (hx : x ∉ h :: xs ++ ys)
    (hlast : n (lastOr h xs) = some x) (hnew : n x = next (lastOr h xs))
    (hsame : ∀ a, a ≠ lastOr h xs → a ≠ x → n a = next a) : Spells n (n h) (xs ++ x :: ys) := by
  induction xs generalizing h with
  | nil =>
    refine ⟨hlast, ?_⟩
    rw [hnew]
    refine hs.congr fun a ha => hsame a ?_ ?_
    · rintro rfl
      exact (List.nodup_cons.mp hnodup).1 ha
    · rintro rfl
      exact hx (List.mem_cons_of_mem _ ha)
  | cons a xs ih =>
    obtain ⟨ha, hs⟩ := hs
    obtain ⟨hh, hnodup⟩ := List.nodup_cons.mp hnodup
    rw [lastOr_cons] at hlast hnew hsame
    have hne : h ≠ lastOr a xs := by
      intro he
      exact hh (he ▸ List.mem_append_left ys (lastOr_mem a xs))
    have hhx : h ≠ x := fun he => hx (he ▸ List.mem_cons_self)
    refine ⟨(hsame h hne hhx).trans ha, ?_⟩
    exact ih hs hnodup (fun hmem => hx (List.mem_cons_of_mem _ hmem)) hlast hnew hsame

theorem Spells.unlink (hs : Spells next (next h) (xs ++ x :: ys)) (hnodup : (h :: xs ++ x :: ys).Nodup)
    (hlast : n (lastOr h xs) = next x) (hsame : ∀ a, a ≠ lastOr h xs → a ≠ x → n a = next a) :
    Spells n (n h) (xs ++ ys) := by
  induction xs generalizing h with
  | nil =>
    obtain ⟨-, hs⟩ := hs
    obtain ⟨hh, hxs⟩ := List.nodup_cons.mp hnodup
    have hlast' : n h = next x := hlast
    rw [List.nil_append, hlast']
    refine hs.congr fun a ha => hsame a ?_ ?_
    · rintro rfl
      exact hh (List.mem_cons_of_mem _ ha)
    · rintro rfl
      exact (List.nodup_cons.mp hxs).1 ha
  | cons a xs ih =>
    obtain ⟨ha, hs⟩ := hs
    obtain ⟨hh, hnodup⟩ := List.nodup_cons.mp hnodup
    rw [lastOr_cons] at hlast hsame
    have hne : h ≠ lastOr a xs := by
      intro he
      exact hh (he ▸ List.mem_append_left _ (lastOr_mem a xs))
    have hhx : h ≠ x := fun he => hh (he ▸ List.mem_append_right _ List.mem_cons_self)
    exact ⟨(hsame h hne hhx).trans ha, ih hs hnodup hlast hsame⟩

/-! ## Several lists -/

variable {ι : Type*} [DecidableEq ι] {ls : ι → List α} {i j : ι}

theorem mem_update_cons : b ∈ Function.update ls i (a :: ls i) j ↔ j = i ∧ b = a ∨ b ∈ ls j := by
  rcases eq_or_ne j i with rfl | hj
  · rw [Function.update_self, List.mem_cons, and_iff_right rfl]
  · rw [Function.update_of_ne hj, or_iff_right fun h => hj h.1]

theorem mem_update_tail (hl : ls i = a :: l) (hnodup : (ls i).Nodup) (hi : ∀ j, a ∈ ls j → j = i) :
    b ∈ Function.update ls i l j ↔ b ∈ ls j ∧ b ≠ a := by
  rcases eq_or_ne j i with rfl | hj
  · rw [hl] at hnodup
    rw [Function.update_self, hl, List.mem_cons]
    constructor
    · intro hb
      refine ⟨.inr hb, ?_⟩
      rintro rfl
      exact (List.nodup_cons.mp hnodup).1 hb
    · rintro ⟨hb, hne⟩
      exact hb.resolve_left hne
  · rw [Function.update_of_ne hj, iff_self_and]
    rintro hb rfl
    exact hj (hi j hb)

end Yjc.Links
