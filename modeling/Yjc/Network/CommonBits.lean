import Mathlib.Data.Nat.Find
import Mathlib.Order.Bounds.Defs
import Yjc.Network.PrefixAgreement
import Yjc.Network.PrefixCopy

/-! What `prefix_common_bits` counts and reads, in `network/prefix.c`. -/

namespace Yjc.Network
open Mem BitPrefix

/-- `prefix_common_bits` of addresses with the bytes `pp1` and `pp2`. -/
def commonBits (family1 family2 : UInt8) (pp1 pp2 : ℕ → Option UInt8) : Option ℤ :=
  let length := commonLength family1
  if family1 ≠ family2 ∨ length = 0 then some (-1)
  else do
    let pos ← firstDifference pp1 pp2 length 0
    if pos = length then some (pos * 8)
    else some (pos * 8 + firstBit ((← pp1 pos) ^^^ (← pp2 pos)) 8 0)

theorem prefixCommonBits_eq (p q : Prefix) : prefixCommonBits p q = commonBits p.family q.family p.val q.val := rfl

def Prefix.addr (p : Prefix) (i : ℕ) : Option UInt8 := if i < memberSize p.family then p.val i else none

/-- The result is -1 for different families, and else the number of equal leading bits, for which no byte outside of the addresses is read. -/
structure CountsCommonBits (p q : Prefix) : Prop where
  differ : p.family ≠ q.family → prefixCommonBits p q = some (-1)
  same : p.family = q.family → HasMember p.family → ∃ r : ℕ, prefixCommonBits p q = some (r : ℤ) ∧
    commonBits p.family q.family p.addr q.addr = some (r : ℤ) ∧
    IsGreatest {k | k ≤ 8 * memberSize p.family ∧ Agree k p.byte q.byte} r

variable {p q : Prefix} {f : UInt8} {np pp : ℕ → Option UInt8} {s t : ℕ → UInt8} {left pos d size : ℕ}

theorem firstDifference_stop (hnp : ∀ i ≤ d, np i = some (s i)) (hpp : ∀ i ≤ d, pp i = some (t i)) (hsame : ∀ i < d, s i = t i)
    (hne : s d ≠ t d) (hpos : pos ≤ d) (hleft : d < pos + left) : firstDifference np pp left pos = some d := by
  -- the scan stops at the first difference, however far it may go
  induction left generalizing pos with
  | zero => omega
  | succ left ih =>
    rw [firstDifference, hnp pos hpos, hpp pos hpos]
    change (if s pos ≠ t pos then _ else _) = _
    rcases Nat.eq_or_lt_of_le hpos with rfl | hlt
    · exact if_pos hne
    · rw [if_neg (not_not_intro (hsame pos hlt))]
      exact ih hlt (by omega)

theorem firstDifference_past (hnp : ∀ i < size, np i = some (s i)) (hpp : ∀ i < size, pp i = some (s i)) (hend : np size = none)
    (hpos : pos ≤ size) (hleft : size < pos + left) : firstDifference np pp left pos = none := by
  induction left generalizing pos with
  | zero => omega
  | succ left ih =>
    rw [firstDifference]
    rcases Nat.eq_or_lt_of_le hpos with rfl | hlt
    · rw [hend]
      rfl
    · rw [hnp pos hlt, hpp pos hlt]
      change (if s pos ≠ s pos then _ else _) = _
      rw [if_neg (not_not_intro rfl)]
      exact ih hlt (by omega)

theorem commonBits_of_difference (hlen : d < commonLength f) (hnp : ∀ i ≤ d, np i = some (s i)) (hpp : ∀ i ≤ d, pp i = some (t i))
    (hsame : ∀ i < d, s i = t i) (hne : s d ≠ t d) :
    commonBits f f np pp = some ((d * 8 + firstBit (s d ^^^ t d) 8 0 : ℕ) : ℤ) := by
  rw [commonBits, if_neg (not_or.mpr ⟨not_not_intro rfl, by omega⟩), firstDifference_stop hnp hpp hsame hne (Nat.zero_le d) (by omega)]
  change (if d = commonLength f then _ else _) = _
  rw [if_neg (Nat.ne_of_lt hlen), hnp d le_rfl, hpp d le_rfl]
  rfl

theorem commonBits_of_same (h0 : commonLength f ≠ 0) (hnp : ∀ i < commonLength f, np i = some (s i))
    (hpp : ∀ i < commonLength f, pp i = some (s i)) : commonBits f f np pp = some ((commonLength f * 8 : ℕ) : ℤ) := by
  obtain ⟨r, hr, -, hle, -, hne⟩ := @firstDifference_eq np pp s s (commonLength f) 0 (fun i hi => hnp i (by omega)) fun i hi => hpp i (by omega)
  have hfull : r = commonLength f := by
    by_contra hc
    exact hne (by omega) rfl
  rw [commonBits, if_neg (not_or.mpr ⟨not_not_intro rfl, h0⟩), hr]
  change (if r = commonLength f then _ else _) = _
  rw [if_pos hfull, hfull]
  rfl

theorem HasMember.size_le (h : HasMember f) : memberSize f ≤ commonLength f ∧ memberSize f ≤ 44 := by
  obtain rfl | rfl | rfl | rfl := h <;> decide

theorem HasMember.eq_of_ne (h : HasMember f) (hf : f ≠ afEvpn) : commonLength f = memberSize f ∧ memberSize f ≠ 0 := by
  obtain rfl | rfl | rfl | rfl := h
  · decide
  · decide
  · decide
  · exact absurd rfl hf

theorem Prefix.addr_eq {i : ℕ} (hi : i < memberSize p.family) : p.addr i = some (p.byte i) := by
  have hsize := memberSize_le p.family
  rw [addr, if_pos hi, Prefix.val_eq (by omega)]

theorem counts_of_difference (hf : p.family = q.family) (h : HasMember p.family) (hd : ∃ i < memberSize p.family, p.byte i ≠ q.byte i) :
    ∃ r : ℕ, prefixCommonBits p q = some (r : ℤ) ∧ commonBits p.family q.family p.addr q.addr = some (r : ℤ) ∧
      IsGreatest {k | k ≤ 8 * memberSize p.family ∧ Agree k p.byte q.byte} r := by
  classical
  obtain ⟨hle, h44⟩ := h.size_le
  obtain ⟨hlt, hne⟩ := Nat.find_spec hd
  have hsame : ∀ i < Nat.find hd, p.byte i = q.byte i := by
    intro i hi
    by_contra hc
    exact Nat.find_min hd hi ⟨by omega, hc⟩
  refine ⟨Nat.find hd * 8 + firstBit (p.byte (Nat.find hd) ^^^ q.byte (Nat.find hd)) 8 0, ?_, ?_, ⟨?_, ?_⟩, fun k hk => ?_⟩
  · rw [prefixCommonBits_eq, ← hf]
    exact commonBits_of_difference (by omega) (fun i hi => Prefix.val_eq (by omega)) (fun i hi => Prefix.val_eq (by omega)) hsame hne
  · rw [← hf]
    exact commonBits_of_difference (by omega) (fun i hi => Prefix.addr_eq (by omega)) (fun i hi => Prefix.addr_eq (hf ▸ by omega))
      hsame hne
  · have hbit := (firstBit_spec _ (mt UInt8.xor_eq_zero_iff.mp hne)).1
    omega
  · exact (le_firstBit_iff hsame hne).mp le_rfl
  · exact (le_firstBit_iff hsame hne).mpr hk.2

theorem counts_of_same (hf : p.family = q.family) (h : HasMember p.family) (hevpn : p.family ≠ afEvpn)
    (hsame : ∀ i < memberSize p.family, p.byte i = q.byte i) :
    ∃ r : ℕ, prefixCommonBits p q = some (r : ℤ) ∧ commonBits p.family q.family p.addr q.addr = some (r : ℤ) ∧
      IsGreatest {k | k ≤ 8 * memberSize p.family ∧ Agree k p.byte q.byte} r := by
  obtain ⟨hlen, h0⟩ := h.eq_of_ne hevpn
  have h44 := h.size_le.2
  refine ⟨commonLength p.family * 8, ?_, ?_, ⟨by omega, ?_⟩, fun k hk => ?_⟩
  · rw [prefixCommonBits_eq, ← hf]
    exact commonBits_of_same (by omega) (fun i hi => Prefix.val_eq (by omega)) fun i hi => by
      rw [hsame i (hlen ▸ hi)]
      exact Prefix.val_eq (by omega)
  · rw [← hf]
    exact commonBits_of_same (by omega) (fun i hi => Prefix.addr_eq (hlen ▸ hi)) fun i hi => by
      rw [hsame i (hlen ▸ hi)]
      exact Prefix.addr_eq (hf ▸ hlen ▸ hi)
  · rw [Nat.mul_comm]
    exact agree_bytes.mpr fun i hi => hsame i (hlen ▸ hi)
  · have hk8 := hk.1
    omega

/-- The count is right unless the same EVPN address is given twice. -/
theorem countsCommonBits_iff : CountsCommonBits p q ↔
    ¬(p.family = afEvpn ∧ q.family = afEvpn ∧ ∀ i < memberSize afEvpn, p.byte i = q.byte i) := by
  constructor
  · rintro h ⟨hp, hq, hsame⟩
    obtain ⟨r, -, hr, -⟩ := h.same (hp.trans hq.symm) (.inr (.inr (.inr hp)))
    -- without the bytes past the addresses the scan has no result
    have hpast : firstDifference p.addr q.addr (commonLength afEvpn) 0 = none := by
      refine @firstDifference_past p.addr q.addr p.byte (commonLength afEvpn) 0 (memberSize afEvpn)
        (fun i hi => Prefix.addr_eq (hp ▸ hi)) (fun i hi => ?_) ?_ (Nat.zero_le _) (by decide)
      · rw [hsame i hi]
        exact Prefix.addr_eq (hq ▸ hi)
      · rw [Prefix.addr, hp, if_neg (Nat.lt_irrefl _)]
    rw [hp, hq, commonBits, if_neg (by decide), hpast] at hr
    cases hr
  · intro h
    refine ⟨fun hf => ?_, fun hf hmember => ?_⟩
    · rw [prefixCommonBits_eq, commonBits]
      exact if_pos (.inl hf)
    · by_cases hd : ∃ i < memberSize p.family, p.byte i ≠ q.byte i
      · exact counts_of_difference hf hmember hd
      · have hsame : ∀ i < memberSize p.family, p.byte i = q.byte i := fun i hi => by
          by_contra hc
          exact hd ⟨i, hi, hc⟩
        refine counts_of_same hf hmember (fun hevpn => h ⟨hevpn, hf ▸ hevpn, fun i hi => ?_⟩) hsame
        exact hsame i (hevpn ▸ hi)

/-- The scan reads past two equal EVPN addresses, and then past the unions. -/
theorem commonBits_reads_past :
    ¬CountsCommonBits ⟨afEvpn, 0, List.replicate 48 0, by decide⟩ ⟨afEvpn, 0, List.replicate 48 0, by decide⟩ ∧
      prefixCommonBits ⟨afEvpn, 0, List.replicate 48 0, by decide⟩ ⟨afEvpn, 0, List.replicate 48 0, by decide⟩ = none := by
  refine ⟨fun h => ?_, by decide +kernel⟩
  obtain ⟨r, hr, -⟩ := h.same rfl (.inr (.inr (.inr rfl)))
  have hnone : prefixCommonBits ⟨afEvpn, 0, List.replicate 48 0, by decide⟩ ⟨afEvpn, 0, List.replicate 48 0, by decide⟩ = none := by
    decide +kernel
  cases hr.symm.trans hnone

end Yjc.Network
