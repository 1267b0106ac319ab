import Yjc.Lib.Mem

/-! Numbers in memory, the low byte first. -/

namespace Yjc.LittleEndian
open Mem

/-- The `k` low bytes. -/
def bytes : ℕ → ℕ → List UInt8
  | 0, _ => []
  | k + 1, n => UInt8.ofNat n :: bytes k (n / 2 ^ 8)

def value : List UInt8 → ℕ
  | [] => 0
  | b :: bs => b.toNat + 2 ^ 8 * value bs

/-- The number in the `k` bytes from `i` on; `none` outside of the memory. -/
def read (m : List UInt8) (i k : ℕ) : Option ℕ := if i + k ≤ m.length then some (value (slice m i (i + k))) else none

variable {m pre post : List UInt8} {i k n : ℕ}

@[simp] theorem length_bytes (k n : ℕ) : (bytes k n).length = k := by
  induction k generalizing n with
  | zero => rfl
  | succ k ih => rw [bytes, List.length_cons, ih]

theorem value_bytes (k n : ℕ) : value (bytes k n) = n % 2 ^ (8 * k) := by
  induction k generalizing n with
  | zero => rw [bytes, value, Nat.mul_zero, Nat.pow_zero, Nat.mod_one]
  | succ k ih =>
    have hsplit : 2 ^ (8 * (k + 1)) = 2 ^ 8 * 2 ^ (8 * k) := by rw [← Nat.pow_add, Nat.mul_succ, Nat.add_comm]
    rw [bytes, value, ih, hsplit, Nat.mod_mul, UInt8.toNat_ofNat']

theorem bytes_value (bs : List UInt8) : bytes bs.length (value bs) = bs := by
  induction bs with
  | nil => rfl
  | cons b bs ih =>
    have hb := b.toNat_lt
    have hlow : UInt8.ofNat (b.toNat + 2 ^ 8 * value bs) = b := by
      rw [UInt8.ofNat_eq_iff_mod_eq_toNat, Nat.add_mul_mod_self_left, Nat.mod_eq_of_lt hb]
    rw [List.length_cons, value, bytes, hlow, Nat.add_mul_div_left _ _ (by decide), Nat.div_eq_of_lt hb, Nat.zero_add, ih]

theorem bytes_add (j k n : ℕ) : bytes (j + k) n = bytes j n ++ bytes k (n / 2 ^ (8 * j)) := by
  induction j generalizing n with
  | zero => rw [Nat.zero_add, bytes, List.nil_append, Nat.mul_zero, Nat.pow_zero, Nat.div_one]
  | succ j ih =>
    rw [Nat.succ_add, bytes, bytes, List.cons_append, ih, Nat.div_div_eq_div_mul, ← Nat.pow_add, Nat.mul_succ, Nat.add_comm (8 * j)]

theorem bytes_mod (k n : ℕ) : bytes k (n % 2 ^ (8 * k)) = bytes k n := by
  have h := bytes_value (bytes k n)
  rwa [length_bytes, value_bytes] at h

theorem getD_bytes (hi : i < k) : (bytes k n).getD i 0 = UInt8.ofNat (n / 2 ^ (8 * i)) := by
  induction k generalizing i n with
  | zero => cases hi
  | succ k ih =>
    cases i with
    | zero => rw [bytes, List.getD_cons_zero, Nat.mul_zero, Nat.pow_zero, Nat.div_one]
    | succ i => rw [bytes, List.getD_cons_succ, ih (Nat.lt_of_succ_lt_succ hi), Nat.div_div_eq_div_mul, ← Nat.pow_add, Nat.mul_succ,
        Nat.add_comm 8]

theorem bytes_inj {m : ℕ} : bytes k m = bytes k n ↔ ∀ i < k, (bytes k m).getD i 0 = (bytes k n).getD i 0 := by
  refine ⟨fun h i _ => by rw [h], fun h => List.ext_getElem (by rw [length_bytes, length_bytes]) fun i hm hn => ?_⟩
  have hi := h i (by rwa [length_bytes] at hm)
  rwa [List.getD_eq_getElem?_getD, List.getElem?_eq_getElem hm, List.getD_eq_getElem?_getD, List.getElem?_eq_getElem hn] at hi

theorem value_lt (bs : List UInt8) : value bs < 2 ^ (8 * bs.length) := by
  induction bs with
  | nil => exact Nat.one_pos
  | cons b bs ih =>
    have hb := b.toNat_lt
    have hsplit : 2 ^ (8 * (b :: bs).length) = 2 ^ 8 * 2 ^ (8 * bs.length) := by
      rw [← Nat.pow_add, List.length_cons, Nat.mul_succ, Nat.add_comm]
    rw [value, hsplit]
    omega

theorem testBit_value (bs : List UInt8) (i : ℕ) {r : ℕ} (hr : r < 8) :
    (value bs).testBit (8 * i + r) = (bs.getD i 0).toNat.testBit r := by
  induction bs generalizing i with
  | nil => rw [value, List.getD_nil, UInt8.toNat_zero, Nat.zero_testBit, Nat.zero_testBit]
  | cons b bs ih =>
    rw [value, Nat.add_comm b.toNat, Nat.testBit_two_pow_mul_add _ b.toNat_lt]
    cases i with
    | zero => rw [Nat.mul_zero, Nat.zero_add, if_pos hr, List.getD_cons_zero]
    | succ i => rw [if_neg (by omega), show 8 * (i + 1) + r - 8 = 8 * i + r by omega, ih, List.getD_cons_succ]

theorem testBit_bytes {r : ℕ} (hi : i < k) (hr : r < 8) : ((bytes k n).getD i 0).toNat.testBit r = n.testBit (8 * i + r) := by
  rw [getD_bytes hi, UInt8.toNat_ofNat', Nat.testBit_mod_two_pow, decide_eq_true hr, Bool.true_and, Nat.testBit_div_two_pow, Nat.add_comm]

theorem read_isSome (h : i + k ≤ m.length) : ∃ n < 2 ^ (8 * k), read m i k = some n := by
  have hlt := value_lt (slice m i (i + k))
  rw [length_slice h, Nat.add_sub_cancel_left] at hlt
  exact ⟨_, hlt, if_pos h⟩

theorem read_lt (h : read m i k = some n) : n < 2 ^ (8 * k) := by
  unfold read at h
  split_ifs at h with hle
  have hlt := value_lt (slice m i (i + k))
  rw [length_slice hle, Nat.add_sub_cancel_left] at hlt
  cases h
  exact hlt

theorem read_bytes (hi : i = pre.length) : read (pre ++ (bytes k n ++ post)) i k = some (n % 2 ^ (8 * k)) := by
  subst hi
  have hslice : slice (pre ++ (bytes k n ++ post)) pre.length (pre.length + k) = bytes k n := by
    rw [slice, ← List.append_assoc, List.take_left' (by rw [List.length_append, length_bytes]), List.drop_left]
  rw [read, if_pos (by rw [List.length_append, List.length_append, length_bytes]; omega), hslice, value_bytes]

theorem read_append (hi : i = pre.length) (hn : n < 2 ^ (8 * k)) : read (pre ++ (bytes k n ++ post)) i k = some n := by
  rw [read_bytes hi, Nat.mod_eq_of_lt hn]

end Yjc.LittleEndian
