import Mathlib.Data.Int.Order.Basic
import Mathlib.Algebra.Group.Int.Defs
import Mathlib.Algebra.Group.Nat.Defs

namespace Yjc

/-- Conversion to a C `int`. -/
def cInt (n : ℤ) : ℤ := n.bmod (2 ^ 32)

theorem cInt_of_lt {n : ℕ} (h : n < 2 ^ 31) : cInt n = n := by
  unfold cInt
  exact Int.bmod_eq_of_le (by omega) (by omega)

theorem cInt_of_eq {z : ℤ} {n : ℕ} (hz : z = n) (h : n < 2 ^ 31) : cInt z = n := by rw [hz, cInt_of_lt h]

theorem cInt_of_ge {n : ℕ} (h : 2 ^ 31 ≤ n) (h' : n < 2 ^ 32) : cInt n = n - 2 ^ 32 := by
  rw [cInt, Int.bmod_def]
  omega

theorem cInt_bounds (n : ℕ) : (cInt n < 0 → 2 ^ 31 ≤ cInt n % 2 ^ 32) ∧ (0 ≤ cInt n → cInt n ≤ n) := by
  rw [cInt, Int.bmod_def]
  omega

end Yjc
