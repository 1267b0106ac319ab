import Mathlib.Data.Finset.Card

/-! The size of a finite set of which one element may come or go. -/

namespace Yjc.Card
variable {α : Type*} [DecidableEq α] {s t : Finset α} {a : α}

theorem erase_eq_of_agree (h : ∀ x, x ≠ a → (x ∈ t ↔ x ∈ s)) : t.erase a = s.erase a := by
  ext x
  rw [Finset.mem_erase, Finset.mem_erase]
  exact and_congr_right fun hx => h x hx

theorem card_add_of_agree (h : ∀ x, x ≠ a → (x ∈ t ↔ x ∈ s)) :
    t.card + (if a ∈ s then 1 else 0) = s.card + if a ∈ t then 1 else 0 := by
  have hcard : ∀ u : Finset α, u.card = (u.erase a).card + if a ∈ u then 1 else 0 := by
    intro u
    split_ifs with ha
    · exact (Finset.card_erase_add_one ha).symm
    · rw [Finset.erase_eq_of_notMem ha, Nat.add_zero]
  rw [hcard s, hcard t, erase_eq_of_agree h]
  omega

end Yjc.Card
