import Mathlib.Order.Monotone.Basic
import Mathlib.Algebra.Order.Group.Nat
import Mathlib.Tactic.SplitIfs

/-! `reconn_setting_t` of `event/eventloop.h`: the delays between the attempts to connect again. -/

namespace Yjc

structure ReconnSetting where
  minDelay : UInt32
  maxDelay : UInt32
  curDelay : UInt32
  delayPolicy : UInt32
  maxRetryCnt : UInt32
  curRetryCnt : UInt32
deriving DecidableEq

namespace ReconnSetting

def init : ReconnSetting := ⟨1000, 60000, 0, 2, 0xFFFFFFFF, 0⟩

def reset (r : ReconnSetting) : ReconnSetting := { r with curDelay := 0, curRetryCnt := 0 }

def canRetry (r : ReconnSetting) : Bool × ReconnSetting :=
  let r := { r with curRetryCnt := r.curRetryCnt + 1 }
  (r.maxRetryCnt == 0xFFFFFFFF || decide (r.curRetryCnt < r.maxRetryCnt), r)

def calcDelay (r : ReconnSetting) : UInt32 × ReconnSetting :=
  let cur :=
    if r.delayPolicy = 0 then r.minDelay
    else if r.delayPolicy = 1 then r.curDelay + r.minDelay
    else r.curDelay * r.delayPolicy
  let cur := if cur > r.minDelay then cur else r.minDelay
  let cur := if cur < r.maxDelay then cur else r.maxDelay
  (cur, { r with curDelay := cur })

/-- The calls that an attempt to connect again makes. -/
inductive Call
  | canRetry
  | calcDelay
deriving DecidableEq

def call (r : ReconnSetting) : Call → ReconnSetting
  | .canRetry => r.canRetry.2
  | .calcDelay => r.calcDelay.2

theorem toNat_max (a b : UInt32) : (if a > b then a else b).toNat = max a.toNat b.toNat := by
  split_ifs with h
  · exact (Nat.max_eq_left (Nat.le_of_lt h)).symm
  · exact (Nat.max_eq_right (Nat.not_lt.mp h)).symm

theorem toNat_min (a b : UInt32) : (if a < b then a else b).toNat = min a.toNat b.toNat := by
  split_ifs with h
  · exact (Nat.min_eq_left (Nat.le_of_lt h)).symm
  · exact (Nat.min_eq_right (Nat.not_lt.mp h)).symm

/-- The delay before attempt `k` as the comment on `delay_policy` has it; `0` before the first. -/
def policyDelay (minDelay maxDelay policy : ℕ) : ℕ → ℕ
  | 0 => 0
  | k + 1 =>
    if policy = 0 then minDelay
    else if policy = 1 then min ((k + 1) * minDelay) maxDelay
    else min (minDelay * policy ^ k) maxDelay

theorem policyDelay_le {m M p : ℕ} (hle : m ≤ M) (k : ℕ) : policyDelay m M p k ≤ M := by
  cases k with
  | zero => exact Nat.zero_le M
  | succ k =>
    unfold policyDelay
    split_ifs
    · exact hle
    · exact Nat.min_le_right ..
    · exact Nat.min_le_right ..

theorem policyDelay_succ {m M p : ℕ} (hle : m ≤ M) (k : ℕ) :
    min (max (if p = 0 then m else if p = 1 then policyDelay m M p k + m else policyDelay m M p k * p) m) M =
      policyDelay m M p (k + 1) := by
  cases k with
  | zero =>
    simp only [policyDelay]
    split_ifs
    · omega
    · rw [Nat.zero_add, Nat.zero_add, Nat.one_mul, Nat.max_self]
    · rw [Nat.zero_mul, pow_zero, Nat.mul_one, Nat.zero_max]
  | succ k =>
    simp only [policyDelay]
    split_ifs with hfixed hlinear
    · omega
    · have hnext : (k + 1 + 1) * m = (k + 1) * m + m := Nat.succ_mul ..
      rw [hnext]
      omega
    · -- neither the last delay nor the bound is past its multiple
      have hp : 0 < p := Nat.pos_of_ne_zero hfixed
      have hnext : m * p ^ (k + 1) = m * p ^ k * p := by rw [Nat.pow_succ, Nat.mul_assoc]
      have hm : m ≤ m * p ^ (k + 1) := Nat.le_mul_of_pos_right m (Nat.pow_pos hp)
      have hM : M ≤ M * p := Nat.le_mul_of_pos_right M hp
      rw [← Nat.mul_min_mul_right, hnext]
      rw [hnext] at hm
      omega

theorem policyDelay_monotone {m M p : ℕ} (hle : m ≤ M) : Monotone (policyDelay m M p) := by
  apply monotone_nat_of_le_succ
  intro k
  have hbound := policyDelay_le (p := p) hle k
  rw [← policyDelay_succ hle k]
  cases k with
  | zero => exact Nat.zero_le _
  | succ k =>
    split_ifs with hfixed hlinear
    · simp only [policyDelay, if_pos hfixed]
      omega
    · omega
    · have hp := Nat.le_mul_of_pos_right (policyDelay m M p (k + 1)) (Nat.pos_of_ne_zero hfixed)
      omega

structure After (r : ReconnSetting) (k : ℕ) (s : ReconnSetting) : Prop where
  minDelay : s.minDelay = r.minDelay
  maxDelay : s.maxDelay = r.maxDelay
  delayPolicy : s.delayPolicy = r.delayPolicy
  curDelay : s.curDelay.toNat = policyDelay r.minDelay.toNat r.maxDelay.toNat r.delayPolicy.toNat k

variable {r s : ReconnSetting} {k : ℕ}

theorem after_reset (r : ReconnSetting) : After r 0 r.reset := ⟨rfl, rfl, rfl, rfl⟩

theorem After.canRetry (h : After r k s) : After r k s.canRetry.2 := ⟨h.1, h.2, h.3, h.4⟩

section Bounded
variable (hle : r.minDelay ≤ r.maxDelay)
  (hbound : r.maxDelay.toNat * max r.delayPolicy.toNat 1 + r.minDelay.toNat < 2 ^ 32)
include hle hbound

theorem After.calcDelay (h : After r k s) : After r (k + 1) s.calcDelay.2 := by
  refine ⟨h.minDelay, h.maxDelay, h.delayPolicy, ?_⟩
  have hle' : r.minDelay.toNat ≤ r.maxDelay.toNat := hle
  have hcur := policyDelay_le (p := r.delayPolicy.toNat) hle' k
  rw [← policyDelay_succ hle', ← h.curDelay]
  rw [← h.curDelay] at hcur
  -- nothing that the policy adds or multiplies wraps
  have hsum : s.curDelay.toNat + r.minDelay.toNat < 2 ^ 32 := by
    have hone := Nat.le_mul_of_pos_right r.maxDelay.toNat (Nat.lt_of_lt_of_le Nat.one_pos (Nat.le_max_right r.delayPolicy.toNat 1))
    omega
  have hprod : s.curDelay.toNat * r.delayPolicy.toNat < 2 ^ 32 := by
    have hmul := Nat.mul_le_mul hcur (Nat.le_max_left r.delayPolicy.toNat 1)
    omega
  have hadd : (s.curDelay + r.minDelay).toNat = s.curDelay.toNat + r.minDelay.toNat := by
    rw [UInt32.toNat_add, Nat.mod_eq_of_lt hsum]
  have hmul : (s.curDelay * r.delayPolicy).toNat = s.curDelay.toNat * r.delayPolicy.toNat := by
    rw [UInt32.toNat_mul, Nat.mod_eq_of_lt hprod]
  unfold ReconnSetting.calcDelay
  dsimp only
  rw [h.minDelay, h.maxDelay, h.delayPolicy, toNat_min, toNat_max]
  have hzero : r.delayPolicy = 0 ↔ r.delayPolicy.toNat = 0 := UInt32.toNat_inj.symm
  have hone : r.delayPolicy = 1 ↔ r.delayPolicy.toNat = 1 := UInt32.toNat_inj.symm
  rw [if_congr hzero rfl rfl, if_congr hone rfl rfl, apply_ite UInt32.toNat, apply_ite UInt32.toNat, hadd, hmul]

theorem After.call (h : After r k s) (c : Call) : After r (k + [c].count .calcDelay) (s.call c) := by
  cases c with
  | canRetry => exact h.canRetry
  | calcDelay => exact h.calcDelay hle hbound

theorem After.calls (h : After r k s) (cs : List Call) : After r (k + cs.count .calcDelay) (cs.foldl ReconnSetting.call s) := by
  induction cs generalizing k s with
  | nil => exact h
  | cons c cs ih =>
    have hrest := ih (h.call hle hbound c)
    rwa [Nat.add_assoc, ← List.count_append] at hrest

end Bounded

/-- What `reconn_setting_calc_delay` returns after a reset and the calls `cs`. -/
def nextDelay (r : ReconnSetting) (cs : List Call) : ℕ := (cs.foldl call r.reset).calcDelay.1.toNat

/-- The delays are those of the policy, whatever `reconn_setting_can_retry` is asked in between. -/
theorem delays_follow_policy (r : ReconnSetting) (hle : r.minDelay ≤ r.maxDelay)
    (hbound : r.maxDelay.toNat * max r.delayPolicy.toNat 1 + r.minDelay.toNat < 2 ^ 32) :
    (∀ cs, nextDelay r cs =
        policyDelay r.minDelay.toNat r.maxDelay.toNat r.delayPolicy.toNat (cs.count .calcDelay + 1)) ∧
      (∀ cs cs', nextDelay r cs ≤ nextDelay r (cs ++ cs')) ∧ ∀ cs, nextDelay r cs ≤ r.maxDelay.toNat := by
  have hnext : ∀ cs, nextDelay r cs =
      policyDelay r.minDelay.toNat r.maxDelay.toNat r.delayPolicy.toNat (cs.count .calcDelay + 1) := by
    intro cs
    have hafter := ((after_reset r).calls hle hbound cs).calcDelay hle hbound
    rw [Nat.zero_add] at hafter
    exact hafter.curDelay
  refine ⟨hnext, fun cs cs' => ?_, fun cs => ?_⟩
  · rw [hnext, hnext, List.count_append]
    apply policyDelay_monotone hle
    omega
  · rw [hnext]
    exact policyDelay_le hle _

/-- The series of the comment on `delay_policy`, in seconds. -/
theorem delays_follow_policy_sample :
    (∀ cs, nextDelay ⟨3, 60, 0, 2, 0xFFFFFFFF, 0⟩ cs = policyDelay 3 60 2 (cs.count .calcDelay + 1)) ∧
      (∀ cs cs', nextDelay ⟨3, 60, 0, 2, 0xFFFFFFFF, 0⟩ cs ≤ nextDelay ⟨3, 60, 0, 2, 0xFFFFFFFF, 0⟩ (cs ++ cs')) ∧
      ∀ cs, nextDelay ⟨3, 60, 0, 2, 0xFFFFFFFF, 0⟩ cs ≤ 60 :=
  delays_follow_policy ⟨3, 60, 0, 2, 0xFFFFFFFF, 0⟩ (by decide) (by decide)

example : ((List.range 7).map fun k => nextDelay ⟨3, 60, 0, 2, 0xFFFFFFFF, 0⟩ (List.replicate k .calcDelay)) =
    [3, 6, 12, 24, 48, 60, 60] := by decide

end ReconnSetting
end Yjc
