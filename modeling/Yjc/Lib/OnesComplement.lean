import Mathlib.Data.Nat.ModEq
import Mathlib.Tactic.SplitIfs

/-! One's complement sums: numbers modulo `m`, where zero is only the sum of zeros and `m` stands for the other multiples. -/

namespace Yjc.OnesComplement
variable {m M a b n : ℕ}

/-- The number in `1..m` for `n` modulo `m`, and zero for zero. -/
def rep (m n : ℕ) : ℕ := if n = 0 then 0 else (n - 1) % m + 1

theorem rep_eq_zero : rep m n = 0 ↔ n = 0 := by
  unfold rep
  by_cases h : n = 0
  · rw [if_pos h, h]
  · rw [if_neg h]
    exact iff_of_false (Nat.succ_ne_zero _) h

theorem rep_le (hm : 0 < m) : rep m n ≤ m := by
  unfold rep
  split_ifs
  · exact Nat.zero_le m
  · exact Nat.mod_lt _ hm

theorem rep_of_le (h : n ≤ m) : rep m n = n := by
  unfold rep
  split_ifs with hn
  · exact hn.symm
  · rw [Nat.mod_eq_of_lt (by omega)]
    omega

theorem rep_modEq (m n : ℕ) : rep m n ≡ n [MOD m] := by
  unfold rep
  split_ifs with hn
  · rw [hn]
  · have hmod : (n - 1) % m + 1 ≡ n - 1 + 1 [MOD m] := (Nat.mod_modEq _ _).add_right 1
    rwa [Nat.sub_add_cancel (Nat.pos_of_ne_zero hn)] at hmod

theorem rep_congr (h : a ≡ b [MOD m]) (hzero : a = 0 ↔ b = 0) : rep m a = rep m b := by
  unfold rep
  by_cases ha : a = 0
  · rw [if_pos ha, if_pos (hzero.mp ha)]
  · have hb : b ≠ 0 := fun hb => ha (hzero.mpr hb)
    have hmod : a - 1 + 1 ≡ b - 1 + 1 [MOD m] := by
      rwa [Nat.sub_add_cancel (Nat.pos_of_ne_zero ha), Nat.sub_add_cancel (Nat.pos_of_ne_zero hb)]
    rw [if_neg ha, if_neg hb, Nat.ModEq.add_right_cancel' 1 hmod]

theorem rep_eq_modulus (hm : 0 < m) : rep m n = m ↔ n ≠ 0 ∧ m ∣ n := by
  have hzero : rep m 0 ≠ m := fun h => hm.ne (rep_eq_zero.mpr rfl ▸ h)
  rw [← Nat.modEq_zero_iff_dvd]
  constructor
  · intro h
    refine ⟨fun hn => hzero (hn ▸ h), (rep_modEq m n).symm.trans ?_⟩
    rw [h, Nat.ModEq, Nat.mod_self, Nat.zero_mod]
  · rintro ⟨hn, hmod⟩
    have hself : m ≡ n [MOD m] := by rw [Nat.ModEq, Nat.mod_self, hmod, Nat.zero_mod]
    rw [← rep_congr hself (iff_of_false hm.ne' hn), rep_of_le (Nat.le_refl m)]

theorem rep_add_rep (m a b : ℕ) : rep m (rep m a + b) = rep m (a + b) := by
  refine rep_congr ((rep_modEq m a).add_right b) ?_
  rw [Nat.add_eq_zero_iff, Nat.add_eq_zero_iff, rep_eq_zero]

theorem rep_rep_of_dvd (h : m ∣ M) (n : ℕ) : rep m (rep M n) = rep m n :=
  rep_congr ((rep_modEq M n).of_dvd h) rep_eq_zero

theorem rep_add_mul (m a b : ℕ) : rep m (a + (m + 1) * b) = rep m (a + b) := by
  refine rep_congr ?_ ?_
  · have hone : m + 1 ≡ 1 [MOD m] := by rw [Nat.ModEq, Nat.add_mod_left]
    have hmul : (m + 1) * b ≡ 1 * b [MOD m] := hone.mul_right b
    rw [Nat.one_mul] at hmul
    exact hmul.add_left a
  · rw [Nat.add_eq_zero_iff, Nat.add_eq_zero_iff, Nat.mul_eq_zero]
    simp

def endAround (m a b : ℕ) : ℕ := if a + b ≤ m then a + b else a + b - m

theorem endAround_eq (ha : a ≤ m) (hb : b ≤ m) : endAround m a b = rep m (a + b) := by
  unfold endAround
  split_ifs with h
  · exact (rep_of_le h).symm
  · rw [rep, if_neg (by omega), show a + b - 1 = a + b - m - 1 + m by omega, Nat.add_mod_right, Nat.mod_eq_of_lt (by omega)]
    omega

theorem foldl_endAround (l : List ℕ) (hl : ∀ b ∈ l, b ≤ m) (ha : a ≤ m) : l.foldl (endAround m) a = rep m (a + l.sum) := by
  induction l generalizing a with
  | nil => exact (rep_of_le ha).symm
  | cons b l ih =>
    obtain ⟨hb, hl⟩ := List.forall_mem_cons.mp hl
    have hab := endAround_eq ha hb
    rw [List.foldl_cons, List.sum_cons, ih hl, hab, rep_add_rep, Nat.add_assoc]
    rw [hab, rep]
    split_ifs with h
    · exact Nat.zero_le m
    · exact Nat.mod_lt _ (by omega)

theorem rep_add_complement (hm : 0 < m) (n : ℕ) : rep m (n + (m - rep m n)) = m := by
  rw [← rep_add_rep, Nat.add_sub_cancel' (rep_le hm), rep_of_le (Nat.le_refl m)]

end Yjc.OnesComplement
