import Yjc.Network.PrefixBits

/-! Covering, comparing, counting common bits and masking, in `network/prefix.c`, see the same network parts. -/

namespace Yjc.Network
open Mem BitPrefix ThreeWay
variable {n p q : Prefix} {k m length : ℕ} {np pp : ℕ → Option UInt8} {s t : ℕ → UInt8}

theorem firstDifference_eq {left pos : ℕ} (hnp : ∀ i < pos + left, np i = some (s i)) (hpp : ∀ i < pos + left, pp i = some (t i)) :
    ∃ r, firstDifference np pp left pos = some r ∧ pos ≤ r ∧ r ≤ pos + left ∧ (∀ i, pos ≤ i → i < r → s i = t i) ∧
      (r < pos + left → s r ≠ t r) := by
  induction left generalizing pos with
  | zero => exact ⟨pos, rfl, le_rfl, le_rfl, fun i hi hlt => absurd hlt (Nat.not_lt.mpr hi), fun h => absurd h (lt_irrefl _)⟩
  | succ left ih =>
    rw [firstDifference, hnp pos (by omega), hpp pos (by omega)]
    change ∃ r, (if s pos ≠ t pos then _ else _) = some r ∧ _
    by_cases h : s pos = t pos
    · obtain ⟨r, hr, hle, hlt, hsame, hne⟩ := @ih (pos + 1) (fun i hi => hnp i (by omega)) fun i hi => hpp i (by omega)
      refine ⟨r, by rw [if_neg (not_not_intro h), hr], by omega, by omega, fun i hi hir => ?_, fun hr => hne (by omega)⟩
      rcases Nat.eq_or_lt_of_le hi with rfl | hi
      · exact h
      · exact hsame i hi hir
    · exact ⟨pos, if_pos h, le_rfl, by omega, fun i hi hlt => absurd hlt (Nat.not_lt.mpr hi), fun _ => h⟩

theorem firstBit_spec (x : UInt8) (hx : x ≠ 0) :
    firstBit x 8 0 < 8 ∧ (∀ j < firstBit x 8 0, bit x j = false) ∧ bit x (firstBit x 8 0) = true := by
  have hall : ∀ b : Fin 256, UInt8.ofNat b ≠ 0 → firstBit (UInt8.ofNat b) 8 0 < 8 ∧
      (∀ j < firstBit (UInt8.ofNat b) 8 0, bit (UInt8.ofNat b) j = false) ∧ bit (UInt8.ofNat b) (firstBit (UInt8.ofNat b) 8 0) = true := by
    decide +kernel
  have hspec := hall ⟨x.toNat, x.toNat_lt⟩
  rw [UInt8.ofNat_toNat] at hspec
  exact hspec hx

theorem commonLength_eq {f : UInt8} (h : prefixBlen f ≠ 0) : commonLength f = prefixBlen f := by
  rw [prefixBlen] at h ⊢
  rw [commonLength]
  split_ifs at h ⊢ <;> first | rfl | exact absurd rfl h

theorem prefixBlen_le (f : UInt8) : prefixBlen f ≤ 16 := by
  rw [prefixBlen]
  split_ifs <;> decide

theorem bit_xor_eq_false {a b : UInt8} {j : ℕ} : bit (a ^^^ b) j = false ↔ bit a j = bit b j := by
  rw [bit_xor]
  cases bit a j <;> cases bit b j <;> decide

theorem le_firstBit_iff {pos : ℕ} (hsame : ∀ i < pos, s i = t i) (hne : s pos ≠ t pos) :
    k ≤ pos * 8 + firstBit (s pos ^^^ t pos) 8 0 ↔ Agree k s t := by
  -- the common bits of strings of bytes whose first difference is at `pos`
  obtain ⟨hlt, hclear, hset⟩ := firstBit_spec _ (mt UInt8.xor_eq_zero_iff.mp hne)
  constructor
  · intro hkr i hi
    by_cases hi8 : i / 8 < pos
    · rw [bitAt, bitAt, hsame _ hi8]
    · have hpos8 : i / 8 = pos := by omega
      rw [bitAt, bitAt, hpos8]
      exact bit_xor_eq_false.mp (hclear _ (by omega))
  · intro hagree
    by_contra hlong
    have hbit := hagree (8 * pos + firstBit (s pos ^^^ t pos) 8 0) (by omega)
    rw [bitAt, bitAt, Nat.mul_add_div (by decide), Nat.div_eq_of_lt hlt, Nat.add_zero, Nat.mul_add_mod, Nat.mod_eq_of_lt hlt,
      ← bit_xor_eq_false, hset] at hbit
    cases hbit

theorem prefixCommonBits_spec (hf : n.family = p.family) (hlen : commonLength n.family = length) (h0 : length ≠ 0) (h48 : length ≤ 48) :
    ∃ r : ℕ, prefixCommonBits n p = some (r : ℤ) ∧ ∀ k ≤ 8 * length, k ≤ r ↔ Agree k n.byte p.byte := by
  obtain ⟨pos, hpos, -, hle, hsame, hne⟩ := @firstDifference_eq n.val p.val n.byte p.byte length 0
    (fun i hi => Prefix.val_eq (by omega)) fun i hi => Prefix.val_eq (by omega)
  rw [Nat.zero_add] at hle hne
  rw [prefixCommonBits, hlen]
  have hguard : ¬(n.family ≠ p.family ∨ length = 0) := not_or.mpr ⟨not_not_intro hf, h0⟩
  change ∃ r : ℕ, (if n.family ≠ p.family ∨ length = 0 then _ else firstDifference n.val p.val length 0 >>= _) = _ ∧ _
  rw [if_neg hguard, hpos]
  change ∃ r : ℕ, (if pos = length then _ else _) = _ ∧ _
  by_cases hfull : pos = length
  · subst hfull
    refine ⟨pos * 8, by rw [if_pos rfl]; rfl, fun k hk => iff_of_true (by omega) ?_⟩
    exact Agree.mono (agree_bytes.mpr fun i hi => hsame i (Nat.zero_le i) hi) hk
  · rw [if_neg hfull, Prefix.val_eq (by omega), Prefix.val_eq (by omega)]
    exact ⟨pos * 8 + firstBit (n.byte pos ^^^ p.byte pos) 8 0, rfl, fun k _ =>
      le_firstBit_iff (fun i hi => hsame i (Nat.zero_le i) hi) (hne (by omega))⟩

theorem masklen2ip_spec (hk : k ≤ 32) :
    ∃ mask, masklen2ip k = some mask ∧ ∀ i < 4, ∀ j < 8, mask.toNat.testBit (8 * i + (7 - j)) = decide (8 * i + j < k) := by
  have hall : ∀ k : Fin 33, ∀ i : Fin 4, ∀ j : Fin 8, ((masklen2ip k).getD 0).toNat.testBit (8 * i + (7 - j)) =
      decide (8 * i.val + j < k) := by decide +kernel
  refine ⟨_, if_pos hk, fun i hi j hj => ?_⟩
  have hbit := hall ⟨k, Nat.lt_succ_of_le hk⟩ ⟨i, hi⟩ ⟨j, hj⟩
  rwa [masklen2ip, if_pos hk] at hbit

theorem applyMaskIpv4_spec (h : p.prefixlen.toNat ≤ 32) :
    ∃ p', applyMaskIpv4 p = some p' ∧ Cleared p.prefixlen.toNat 4 p.byte p'.byte := by
  obtain ⟨mask, hmask, hbits⟩ := masklen2ip_spec h
  refine ⟨_, by rw [applyMaskIpv4, hmask]; rfl, fun i hi => ?_⟩
  have hi4 : i / 8 < 4 := by omega
  have hj : i % 8 < 8 := Nat.mod_lt i (by decide)
  have hsplit : 8 * (i / 8) + i % 8 = i := Nat.div_add_mod i 8
  rw [bitAt, bitAt, Prefix.byte_put (by rw [LittleEndian.length_bytes]; decide), LittleEndian.length_bytes, if_pos ⟨Nat.zero_le _, by omega⟩,
    Nat.sub_zero, bit, LittleEndian.testBit_bytes hi4 (by omega), UInt32.toNat_and, Nat.testBit_and, bit_sAddr p hi4, hbits _ hi4 _ hj,
    hsplit, Bool.and_comm]

theorem applyMaskIpv6_spec (p : Prefix) : Cleared p.prefixlen.toNat 16 p.byte (applyMaskIpv6 p).byte := by
  intro i hi
  rw [applyMaskIpv6]
  by_cases hindex : p.prefixlen.toNat / 8 < 16
  · have hk : p.prefixlen.toNat % 8 < 8 := Nat.mod_lt _ (by decide)
    rw [if_pos hindex, bitAt, bitAt, Prefix.byte_put (by rw [List.length_replicate]; omega), Prefix.byte_setByte (by omega),
      List.length_replicate, maskbit_eq hk.le]
    rcases Nat.lt_trichotomy (i / 8) (p.prefixlen.toNat / 8) with hlt | heq | hgt
    · rw [if_neg (by omega), if_neg (by omega), decide_eq_true (by omega), Bool.true_and]
    · rw [if_neg (by omega), if_pos heq, bit_and, bit_high hk.le (Nat.mod_lt i (by decide)), ← heq, Bool.and_comm]
      congr 1
      exact decide_eq_decide.mpr (by omega)
    · rw [if_pos (by omega), decide_eq_false (by omega), Bool.false_and, List.getD_replicate _ (by omega), bit, UInt8.toNat_zero,
        Nat.zero_testBit]
  · rw [if_neg hindex, decide_eq_true (by omega), Bool.true_and]

/-- An IPv4, IPv6 or Ethernet prefix whose length is at most that of its family's addresses. -/
def WellFormed (p : Prefix) : Prop :=
  (p.family = afInet ∨ p.family = afInet6 ∨ p.family = afEthernet) ∧ p.prefixlen.toNat ≤ 8 * prefixBlen p.family

theorem WellFormed.blen_ne_zero (h : WellFormed p) : prefixBlen p.family ≠ 0 := by
  obtain ⟨h | h | h, -⟩ := h <;> rw [h] <;> decide

theorem WellFormed.not_flowspec (h : WellFormed p) : p.family ≠ afFlowspec := by
  obtain ⟨h | h | h, -⟩ := h <;> rw [h] <;> decide

theorem WellFormed.prefixlen_le (h : WellFormed p) : p.prefixlen.toNat ≤ 8 * 16 :=
  h.2.trans (Nat.mul_le_mul_left 8 (prefixBlen_le _))

theorem WellFormed.cut (hp : WellFormed p) {len : UInt16} (h : len ≤ p.prefixlen) : WellFormed (p.cut len) :=
  ⟨hp.1, (UInt16.le_iff_toNat_le.mp h).trans hp.2⟩

theorem prefixMatch_one (hn : WellFormed n) : prefixMatch n p = some 1 ↔ n.prefixlen ≤ p.prefixlen ∧ Agree n.prefixlen.toNat n.byte p.byte := by
  rw [prefixMatch_eq hn.not_flowspec (hn.prefixlen_le.trans (by decide)), Option.some_inj]
  split_ifs with h
  · exact iff_of_true rfl h
  · exact iff_of_false (by decide) h

theorem prefixCmp_zero {mem : Memory} (hn : WellFormed n) (hf : n.family = p.family) :
    prefixCmp mem n p = some 0 ↔ n.prefixlen = p.prefixlen ∧ Agree n.prefixlen.toNat n.byte p.byte := by
  rw [prefixCmp_bits hf hn.not_flowspec (hn.prefixlen_le.trans (by decide)), Option.some_inj, threeWay_eq_zero,
    key_bits hn.not_flowspec, key_bits (hf ▸ hn.not_flowspec), List.cons_eq_cons, List.cons_eq_cons, UInt16.toNat_inj]
  constructor
  · rintro ⟨-, hlen, hpart⟩
    rw [← hlen] at hpart
    exact ⟨hlen, networkPart_inj.mp hpart⟩
  · rintro ⟨hlen, hagree⟩
    rw [← hlen]
    exact ⟨congrArg _ hf, rfl, networkPart_inj.mpr hagree⟩

theorem applyMask_spec (hp : WellFormed p) (hf : p.family ≠ afEthernet) :
    ∃ p', applyMask p = some p' ∧ Cleared p.prefixlen.toNat (prefixBlen p.family) p.byte p'.byte := by
  obtain ⟨h | h | h, hlen⟩ := hp
  · rw [h] at hlen ⊢
    rw [applyMask, if_pos h]
    exact applyMaskIpv4_spec hlen
  · rw [h] at hlen ⊢
    rw [applyMask, if_neg (by rw [h]; decide), if_pos h]
    exact ⟨_, rfl, applyMaskIpv6_spec p⟩
  · exact absurd h hf

/-- The operations agree on whether `n` covers `p`. -/
theorem prefix_operations_agree (mem : Memory) (hn : WellFormed n) (hp : WellFormed p) (hnp : n.family = p.family) :
    (prefixMatch n p = some 1 ↔
      n.prefixlen ≤ p.prefixlen ∧ ∃ r, prefixCommonBits n p = some r ∧ (n.prefixlen.toNat : ℤ) ≤ r) ∧
    (n.prefixlen ≤ p.prefixlen → (prefixMatch n p = some 1 ↔ prefixCmp mem n (p.cut n.prefixlen) = some 0) ∧
      (n.family ≠ afEthernet → ∃ n' p', applyMask n = some n' ∧ applyMask (p.cut n.prefixlen) = some p' ∧
        (prefixMatch n p = some 1 ↔ ∀ i < prefixBlen n.family, n'.byte i = p'.byte i))) ∧
    prefixMatch n n = some 1 ∧
    (∀ q, prefixMatch n p = some 1 → prefixMatch p q = some 1 → prefixMatch n q = some 1) ∧
    (prefixMatch n p = some 1 ∧ prefixMatch p n = some 1 ↔ prefixCmp mem n p = some 0) := by
  have hblen := hn.blen_ne_zero
  obtain ⟨r, hr, hbits⟩ := prefixCommonBits_spec hnp (commonLength_eq hblen) hblen ((prefixBlen_le _).trans (by decide))
  refine ⟨?_, fun hle => ⟨?_, fun heth => ?_⟩, ?_, fun q hnp hpq => ?_, ?_⟩
  · rw [prefixMatch_one hn, ← hbits _ hn.2]
    refine and_congr_right fun _ => ⟨fun h => ⟨r, hr, Int.ofNat_le.mpr h⟩, ?_⟩
    rintro ⟨r', hr', h⟩
    rw [hr, Option.some_inj] at hr'
    exact Int.ofNat_le.mp (hr' ▸ h)
  · rw [prefixMatch_one hn, prefixCmp_zero (p := p.cut n.prefixlen) hn hnp]
    exact and_congr_left fun _ => iff_of_true hle rfl
  · obtain ⟨n', hn', hcn⟩ := applyMask_spec hn heth
    obtain ⟨p', hp', hcp⟩ := applyMask_spec (hp.cut hle) (show p.family ≠ afEthernet from hnp ▸ heth)
    refine ⟨n', p', hn', hp', ?_⟩
    rw [show (p.cut n.prefixlen).family = n.family from hnp.symm] at hcp
    rw [prefixMatch_one hn, hcn.eq_iff hcp hn.2]
    exact and_iff_right hle
  · exact (prefixMatch_one hn).mpr ⟨UInt16.le_refl _, Agree.refl _ _⟩
  · obtain ⟨hle, hagree⟩ := (prefixMatch_one hn).mp hnp
    obtain ⟨hle', hagree'⟩ := (prefixMatch_one hp).mp hpq
    exact (prefixMatch_one hn).mpr ⟨UInt16.le_trans hle hle', hagree.trans (hagree'.mono (UInt16.le_iff_toNat_le.mp hle))⟩
  · rw [prefixMatch_one hn, prefixMatch_one hp, prefixCmp_zero hn hnp]
    constructor
    · rintro ⟨⟨hle, hagree⟩, hge, -⟩
      exact ⟨UInt16.le_antisymm hle hge, hagree⟩
    · rintro ⟨hlen, hagree⟩
      exact ⟨⟨UInt16.le_of_eq hlen, hagree⟩, UInt16.le_of_eq hlen.symm, hlen ▸ hagree.symm⟩

/-- `10.0.0.0/8` and `10.1.0.0/16`. -/
theorem prefix_operations_agree_sample :
    prefixMatch ⟨afInet, 8, 10 :: List.replicate 47 0, by decide⟩ ⟨afInet, 16, 10 :: 1 :: List.replicate 46 0, by decide⟩ = some 1 ∧
    prefixCmp (fun _ => none) ⟨afInet, 8, 10 :: List.replicate 47 0, by decide⟩
      (Prefix.cut ⟨afInet, 16, 10 :: 1 :: List.replicate 46 0, by decide⟩ 8) = some 0 := by
  have hagree := prefix_operations_agree (n := ⟨afInet, 8, 10 :: List.replicate 47 0, by decide⟩)
    (p := ⟨afInet, 16, 10 :: 1 :: List.replicate 46 0, by decide⟩) (fun _ => none) ⟨.inl rfl, by decide⟩ ⟨.inl rfl, by decide⟩ rfl
  have hmatch : prefixMatch ⟨afInet, 8, 10 :: List.replicate 47 0, by decide⟩ ⟨afInet, 16, 10 :: 1 :: List.replicate 46 0, by decide⟩ =
      some 1 := by decide +kernel
  exact ⟨hmatch, (hagree.2.1 (by decide)).1.mp hmatch⟩

end Yjc.Network
