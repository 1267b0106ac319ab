import Mathlib.Data.Nat.Bitwise
import Mathlib.Tactic.Common

/-! Strings of bytes read as strings of bits, the high bit of every byte first. -/

namespace Yjc.BitPrefix

/-- Bit `j` of a byte, from the high one on. -/
def bit (b : UInt8) (j : ℕ) : Bool := b.toNat.testBit (7 - j)

/-- Bit `i` of the string. -/
def bitAt (s : ℕ → UInt8) (i : ℕ) : Bool := bit (s (i / 8)) (i % 8)

/-- The first `k` bits are the same. -/
def Agree (k : ℕ) (s t : ℕ → UInt8) : Prop := ∀ i < k, bitAt s i = bitAt t i

instance (k : ℕ) (s t : ℕ → UInt8) : Decidable (Agree k s t) := inferInstanceAs (Decidable (∀ i < k, bitAt s i = bitAt t i))

/-- The `k` high bits set. -/
def high (k : ℕ) : UInt8 := UInt8.ofNat (2 ^ 8 - 2 ^ (8 - k))

variable {k l n i : ℕ} {s t r : ℕ → UInt8} {a b : UInt8}

theorem Agree.refl (k : ℕ) (s : ℕ → UInt8) : Agree k s s := fun _ _ => rfl

theorem Agree.symm (h : Agree k s t) : Agree k t s := fun i hi => (h i hi).symm

theorem Agree.trans (hst : Agree k s t) (htr : Agree k t r) : Agree k s r := fun i hi => (hst i hi).trans (htr i hi)

theorem Agree.mono (h : Agree k s t) (hl : l ≤ k) : Agree l s t := fun i hi => h i (Nat.lt_of_lt_of_le hi hl)

theorem byte_ext (h : ∀ j < 8, bit a j = bit b j) : a = b := by
  apply UInt8.toNat_inj.mp
  apply Nat.eq_of_testBit_eq
  intro j
  by_cases hj : j < 8
  · have hbit := h (7 - j) (by omega)
    rwa [bit, bit, show 7 - (7 - j) = j by omega] at hbit
  · have hge : 2 ^ 8 ≤ 2 ^ j := Nat.pow_le_pow_right (by decide) (Nat.le_of_not_lt hj)
    rw [Nat.testBit_lt_two_pow (Nat.lt_of_lt_of_le a.toNat_lt hge), Nat.testBit_lt_two_pow (Nat.lt_of_lt_of_le b.toNat_lt hge)]

theorem bit_high {j : ℕ} (hk : k ≤ 8) (hj : j < 8) : bit (high k) j = decide (j < k) := by
  have hall : ∀ k : Fin 9, ∀ j : Fin 8, bit (high k) j = decide (j.val < k.val) := by decide
  exact hall ⟨k, Nat.lt_succ_of_le hk⟩ ⟨j, hj⟩

theorem bit_and (a b : UInt8) (j : ℕ) : bit (a &&& b) j = (bit a j && bit b j) := by
  rw [bit, UInt8.toNat_and, Nat.testBit_and, bit, bit]

theorem bit_xor (a b : UInt8) (j : ℕ) : bit (a ^^^ b) j = (bit a j ^^ bit b j) := by
  rw [bit, UInt8.toNat_xor, Nat.testBit_xor, bit, bit]

theorem and_high_eq_iff (hk : k ≤ 8) : a &&& high k = b &&& high k ↔ ∀ j < k, bit a j = bit b j := by
  constructor
  · intro h j hj
    have hbit := congrArg (bit · j) h
    simpa [bit_and, bit_high hk (Nat.lt_of_lt_of_le hj hk), hj] using hbit
  · intro h
    apply byte_ext
    intro j hj
    rw [bit_and, bit_and, bit_high hk hj]
    by_cases hjk : j < k
    · rw [h j hjk]
    · rw [decide_eq_false hjk, Bool.and_false, Bool.and_false]

theorem high_and_xor_eq_zero_iff (hk : k ≤ 8) : high k &&& (a ^^^ b) = 0 ↔ a &&& high k = b &&& high k := by
  have hzero : (0 : UInt8) = 0 &&& high k := UInt8.zero_and.symm
  rw [UInt8.and_comm, hzero, and_high_eq_iff hk, and_high_eq_iff hk]
  refine forall₂_congr fun j _ => ?_
  rw [bit_xor, bit, bit, bit, UInt8.toNat_zero, Nat.zero_testBit]
  cases a.toNat.testBit (7 - j) <;> cases b.toNat.testBit (7 - j) <;> decide

theorem agree_iff : Agree k s t ↔ (∀ i < k / 8, s i = t i) ∧ s (k / 8) &&& high (k % 8) = t (k / 8) &&& high (k % 8) := by
  rw [and_high_eq_iff (Nat.le_of_lt (Nat.mod_lt k (by decide)))]
  constructor
  · intro h
    refine ⟨fun i hi => byte_ext fun j hj => ?_, fun j hj => ?_⟩
    · have hbit := h (8 * i + j) (by omega)
      rwa [bitAt, bitAt, show (8 * i + j) / 8 = i by omega, show (8 * i + j) % 8 = j by omega] at hbit
    · have hbit := h (8 * (k / 8) + j) (by omega)
      rwa [bitAt, bitAt, show (8 * (k / 8) + j) / 8 = k / 8 by omega, show (8 * (k / 8) + j) % 8 = j by omega] at hbit
  · rintro ⟨hbytes, hlast⟩ i hi
    rw [bitAt, bitAt]
    by_cases h : i / 8 < k / 8
    · rw [hbytes _ h]
    · have hik : i / 8 = k / 8 := by omega
      rw [hik]
      exact hlast _ (by omega)

theorem high_zero : high 0 = 0 := by decide

theorem agree_bytes : Agree (8 * n) s t ↔ ∀ i < n, s i = t i := by
  rw [agree_iff, Nat.mul_div_cancel_left n (by decide), Nat.mul_mod_right, high_zero, UInt8.and_zero, UInt8.and_zero]
  exact and_iff_left rfl

/-- The bits past the first `k` cleared in the first `n` bytes. -/
def Cleared (k n : ℕ) (s t : ℕ → UInt8) : Prop := ∀ i < 8 * n, bitAt t i = (decide (i < k) && bitAt s i)

theorem Cleared.eq_iff {s' t' : ℕ → UInt8} (hs : Cleared k n s s') (ht : Cleared k n t t') (hk : k ≤ 8 * n) :
    (∀ i < n, s' i = t' i) ↔ Agree k s t := by
  rw [← agree_bytes]
  constructor
  · intro h i hi
    have hbit := h i (Nat.lt_of_lt_of_le hi hk)
    rwa [hs i (Nat.lt_of_lt_of_le hi hk), ht i (Nat.lt_of_lt_of_le hi hk), decide_eq_true hi, Bool.true_and, Bool.true_and] at hbit
  · intro h i hi
    rw [hs i hi, ht i hi]
    by_cases hik : i < k
    · rw [h i hik]
    · rw [decide_eq_false hik, Bool.false_and, Bool.false_and]

end Yjc.BitPrefix
