import Mathlib.Data.Nat.Bitwise
import Mathlib.Tactic.Ring

/-! `varint_decode` of `base/math.h`, and the number a varint stands for. -/

namespace Yjc.Base

inductive VarintDecode
  | found (value bytes : ℕ)
  | short
  | tooBig
  | outOfBounds
deriving DecidableEq

/-- The rounds of the do-while of `varint_decode`, of which `k` are left. `m` is the memory from `buf`
on, `len` the value `*len` has on entry; the 64-bit `ret` is kept as its bit pattern. -/
def varintDecodeLoop (m : List UInt8) (len : ℕ) : ℕ → ℕ → ℕ → VarintDecode
  | 0, _, _ => .tooBig
  | k + 1, bytes, ret =>
    if len ≠ 0 ∧ bytes = len then .short
    else
      match m[bytes]? with
      | none => .outOfBounds
      | some b =>
        let ret := ret ||| ((b.toNat &&& 0x7F) <<< (7 * bytes)) % 2 ^ 64
        if b.toNat &&& 0x80 = 0 then .found ret (bytes + 1)
        else varintDecodeLoop m len k (bytes + 1) ret

def varintDecode (m : List UInt8) (len : ℕ) : VarintDecode := varintDecodeLoop m len 10 0 0

/-- The number at the front of a byte string and the bytes it takes: seven bits a byte, the lowest
first, every byte but the last with its top bit set. -/
def varint : List UInt8 → Option (ℕ × ℕ)
  | [] => none
  | b :: bs => if b.toNat < 128 then some (b.toNat, 1) else (varint bs).map fun r => (b.toNat % 128 + 128 * r.1, r.2 + 1)

theorem varint_bytes {xs : List UInt8} {v n : ℕ} (h : varint xs = some (v, n)) : 0 < n ∧ n ≤ xs.length := by
  induction xs generalizing v n with
  | nil => simp [varint] at h
  | cons b bs ih =>
    rw [varint] at h
    split at h
    · cases h
      simp
    · obtain ⟨⟨w, m⟩, hr, he⟩ := Option.map_eq_some_iff.mp h
      cases he
      have := ih hr
      simp only [List.length_cons]
      omega

theorem varint_append {xs : List UInt8} {r : ℕ × ℕ} (ys : List UInt8) (h : varint xs = some r) :
    varint (xs ++ ys) = some r := by
  induction xs generalizing r with
  | nil => simp [varint] at h
  | cons b bs ih =>
    rw [varint] at h
    rw [List.cons_append, varint]
    split
    · rwa [if_pos ‹_›] at h
    · rw [if_neg ‹_›] at h
      obtain ⟨r', hr, he⟩ := Option.map_eq_some_iff.mp h
      rw [ih hr, Option.map_some, he]

theorem varint_take {xs : List UInt8} {v n k : ℕ} (h : varint xs = some (v, n)) (hk : n ≤ k) :
    varint (xs.take k) = some (v, n) := by
  induction xs generalizing v n k with
  | nil => simp [varint] at h
  | cons b bs ih =>
    obtain ⟨k, rfl⟩ : ∃ j, k = j + 1 := ⟨k - 1, by have := varint_bytes h; omega⟩
    rw [varint] at h
    rw [List.take_succ_cons, varint]
    split
    · rwa [if_pos ‹_›] at h
    · rw [if_neg ‹_›] at h
      obtain ⟨⟨w, m⟩, hr, he⟩ := Option.map_eq_some_iff.mp h
      cases he
      rw [ih hr (by omega), Option.map_some]

theorem topBit_eq_zero (b : UInt8) : b.toNat &&& 0x80 = 0 ↔ b.toNat < 128 := by
  have hb := b.toNat_lt
  rw [show 0x80 = 2 ^ 7 from rfl, Nat.and_two_pow, Nat.testBit_eq_decide_div_mod_eq]
  by_cases h : b.toNat < 128
  · simp [h, Nat.div_eq_of_lt h]
  · have h1 : b.toNat / 128 % 2 = 1 := by omega
    simp [h, h1]

theorem lowBits (n : ℕ) : n &&& 0x7F = n % 128 := Nat.and_two_pow_sub_one_eq_mod n 7

theorem or_bits (ret c i : ℕ) (h : ret < 2 ^ (7 * i)) :
    ret % 2 ^ 64 ||| (c <<< (7 * i)) % 2 ^ 64 = (ret + c * 2 ^ (7 * i)) % 2 ^ 64 := by
  rw [← Nat.or_mod_two_pow, Nat.or_comm, ← Nat.shiftLeft_add_eq_or_of_lt h, Nat.shiftLeft_eq, Nat.add_comm]

/-- The bytes `varint_decode` may look at: a length of 0 does not bound them. -/
def varintWindow (m : List UInt8) (len : ℕ) : List UInt8 := if len = 0 then m else m.take len

theorem length_varintWindow (m : List UInt8) (len : ℕ) :
    (varintWindow m len).length = if len = 0 then m.length else min len m.length := by
  unfold varintWindow
  split <;> simp

theorem varintWindow_drop {m : List UInt8} {len i : ℕ} {b : UInt8} (hi : len = 0 ∨ i < len) (hb : m[i]? = some b) :
    (varintWindow m len).drop i = b :: (varintWindow m len).drop (i + 1) := by
  have hget : (varintWindow m len)[i]? = some b := by
    rw [← hb]
    unfold varintWindow
    split
    · rfl
    · rw [List.getElem?_take, if_pos (by omega)]
  obtain ⟨hlt, rfl⟩ := List.getElem?_eq_some_iff.mp hget
  exact List.drop_eq_getElem_cons hlt

theorem varintDecodeLoop_eq (m : List UInt8) (len k : ℕ) : ∀ (i acc : ℕ), acc < 2 ^ (7 * i) → i ≤ m.length →
    (len = 0 ∨ i ≤ len) →
    varintDecodeLoop m len k i (acc % 2 ^ 64) =
      match varint (((varintWindow m len).drop i).take k) with
      | some (v, n) => .found ((acc + v * 2 ^ (7 * i)) % 2 ^ 64) (i + n)
      | none =>
        if k ≤ ((varintWindow m len).drop i).length then .tooBig
        else if len = 0 ∨ m.length < len then .outOfBounds else .short := by
  induction k with
  | zero =>
    intro i acc _ _ _
    simp [varintDecodeLoop, varint]
  | succ k ih =>
    intro i acc hacc him hi
    have hlen := length_varintWindow m len
    rw [varintDecodeLoop]
    by_cases hs : len ≠ 0 ∧ i = len
    -- the bound is reached
    · obtain ⟨h0, rfl⟩ := hs
      have hn : (varintWindow m i).drop i = [] :=
        List.drop_eq_nil_of_le (by rw [hlen, if_neg h0]; omega)
      simp [h0, hn, varint, Nat.not_lt.mpr him]
    rw [if_neg hs]
    cases hm : m[i]? with
    | none =>
      -- the bytes end before the bound
      have hle : m.length ≤ i := List.getElem?_eq_none_iff.mp hm
      have hn : (varintWindow m len).drop i = [] := by
        apply List.drop_eq_nil_of_le
        rw [hlen]
        split <;> omega
      have ho : len = 0 ∨ m.length < len := by omega
      simp [hn, varint, ho]
    | some b =>
      have hi' : i < m.length := (List.getElem?_eq_some_iff.mp hm).1
      have hd := varintWindow_drop (by omega : len = 0 ∨ i < len) hm
      have hret : acc % 2 ^ 64 ||| ((b.toNat &&& 0x7F) <<< (7 * i)) % 2 ^ 64 =
          (acc + b.toNat % 128 * 2 ^ (7 * i)) % 2 ^ 64 := by
        rw [lowBits, or_bits _ _ _ hacc]
      simp only [hret, topBit_eq_zero, hd, List.take_succ_cons, varint, List.length_cons]
      split
      · rename_i hb
        simp only [Nat.mod_eq_of_lt hb]
      have hpow : 2 ^ (7 * (i + 1)) = 2 ^ (7 * i) * 128 := by rw [Nat.mul_succ, Nat.pow_add]
      have hacc' : acc + b.toNat % 128 * 2 ^ (7 * i) < 2 ^ (7 * (i + 1)) := by
        have hb : b.toNat % 128 ≤ 127 := by omega
        have := Nat.mul_le_mul_right (2 ^ (7 * i)) hb
        omega
      rw [ih (i + 1) _ hacc' (by omega) (by omega)]
      cases varint (((varintWindow m len).drop (i + 1)).take k) with
      | none => simp only [Option.map_none, Nat.add_le_add_iff_right]
      | some r =>
        obtain ⟨v, n⟩ := r
        have hv : acc + b.toNat % 128 * 2 ^ (7 * i) + v * (2 ^ (7 * i) * 128) =
            acc + (b.toNat % 128 + 128 * v) * 2 ^ (7 * i) := by ring
        simp only [Option.map_some, hpow, hv, Nat.add_assoc, Nat.add_comm 1 n]

theorem varintDecode_eq (m : List UInt8) (len : ℕ) :
    varintDecode m len =
      match varint ((varintWindow m len).take 10) with
      | some (v, n) => .found (v % 2 ^ 64) n
      | none =>
        if 10 ≤ (varintWindow m len).length then .tooBig
        else if len = 0 ∨ m.length < len then .outOfBounds else .short := by
  have h := varintDecodeLoop_eq m len 10 0 0 (by decide) (Nat.zero_le _) (by omega)
  simp only [Nat.zero_mod, List.drop_zero, Nat.mul_zero, Nat.pow_zero, Nat.mul_one, Nat.zero_add] at h
  exact h

end Yjc.Base
