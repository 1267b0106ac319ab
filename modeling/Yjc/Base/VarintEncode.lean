import Yjc.Base.Varint
import Yjc.Lib.Loop

/-! `varint_encode` of `base/math.h`, and what `varint_decode` makes of the bytes it writes. -/

namespace Yjc.Base

structure VarintEncode where
  value : BitVec 64
  bytes : ℕ
  buf : List UInt8
deriving DecidableEq

/-- One round of the do-while of `varint_encode`. `buf` holds the bytes written so far (what lies before `p`);
the shift of the signed `value` brings copies of its sign bit in. -/
def varintEncodeRound (s : VarintEncode) : VarintEncode ⊕ (ℕ × List UInt8) :=
  let ch := UInt8.ofBitVec ((s.value &&& 0x7F).setWidth 8)
  let value := s.value.sshiftRight 7
  let buf := s.buf ++ [if value = 0 then ch else ch ||| 0x80]
  let bytes := s.bytes + 1
  if value = 0 then .inr (bytes, buf) else .inl ⟨value, bytes, buf⟩

/-- The count `varint_encode` returns and the bytes it writes; `none` while `fuel` rounds do not finish it. -/
def varintEncode (fuel : ℕ) (value : BitVec 64) : Option (ℕ × List UInt8) :=
  Loop.run varintEncodeRound fuel ⟨value, 0, []⟩

theorem toNat_lowBits (v : BitVec 64) : (UInt8.ofBitVec ((v &&& 0x7F).setWidth 8)).toNat = v.toNat % 128 := by
  have h : v.toNat % 128 < 2 ^ 8 := by omega
  rw [UInt8.toNat_ofBitVec, BitVec.toNat_setWidth, BitVec.toNat_and, show (0x7F : BitVec 64).toNat = 0x7F from rfl,
    lowBits, Nat.mod_eq_of_lt h]

theorem toNat_or_topBit {c : UInt8} (h : c.toNat < 128) : (c ||| 0x80).toNat = c.toNat + 128 := by
  have hor := @Nat.two_pow_add_eq_or_of_lt 7 c.toNat h 1
  rw [UInt8.toNat_or, Nat.or_comm, Nat.add_comm]
  exact hor.symm

theorem toNat_shift_of_lt {v : BitVec 64} (hv : v.toNat < 2 ^ 63) : (v.sshiftRight 7).toNat = v.toNat / 128 := by
  have hm : v.msb = false := by
    rw [BitVec.msb_eq_decide]
    exact decide_eq_false (by omega)
  rw [BitVec.toNat_sshiftRight_of_msb_false hm, Nat.shiftRight_eq_div_pow]

theorem shift_eq_zero_iff {v : BitVec 64} (hv : v.toNat < 2 ^ 63) : v.sshiftRight 7 = 0 ↔ v.toNat < 128 := by
  rw [← BitVec.toNat_inj, toNat_shift_of_lt hv, show (0 : BitVec 64).toNat = 0 from rfl]
  omega

theorem varintEncodeRound_last {s : VarintEncode} (h : s.value.toNat < 128) :
    ∃ b : UInt8, varintEncodeRound s = .inr (s.bytes + 1, s.buf ++ [b]) ∧ b.toNat = s.value.toNat := by
  have hz := (shift_eq_zero_iff (by omega)).mpr h
  refine ⟨UInt8.ofBitVec ((s.value &&& 0x7F).setWidth 8), ?_, ?_⟩
  · simp only [varintEncodeRound, hz, if_pos]
  · rw [toNat_lowBits, Nat.mod_eq_of_lt h]

theorem varintEncodeRound_more {s : VarintEncode} (h : 128 ≤ s.value.toNat) (hs : s.value.toNat < 2 ^ 63) :
    ∃ b : UInt8, varintEncodeRound s = .inl ⟨s.value.sshiftRight 7, s.bytes + 1, s.buf ++ [b]⟩ ∧
      b.toNat = s.value.toNat % 128 + 128 := by
  have hz : ¬s.value.sshiftRight 7 = 0 := by
    rw [shift_eq_zero_iff hs]
    omega
  refine ⟨UInt8.ofBitVec ((s.value &&& 0x7F).setWidth 8) ||| 0x80, ?_, ?_⟩
  · simp only [varintEncodeRound, if_neg hz]
  · rw [toNat_or_topBit] <;> rw [toNat_lowBits]
    omega

theorem varintEncode_run (k : ℕ) (s : VarintEncode) (hs : s.value.toNat < 2 ^ 63)
    (hk : s.value.toNat < 2 ^ (7 * (k + 1))) :
    ∃ digits, Loop.run varintEncodeRound (k + 1) s = some (s.bytes + digits.length, s.buf ++ digits) ∧
      varint digits = some (s.value.toNat, digits.length) ∧ digits.length ≤ k + 1 := by
  induction k generalizing s with
  | zero =>
    obtain ⟨b, hb, hv⟩ := varintEncodeRound_last hk
    refine ⟨[b], Loop.run_leave hb 0, ?_, le_rfl⟩
    rw [varint, if_pos (by rw [hv]; exact hk), hv, List.length_singleton]
  | succ k ih =>
    by_cases hlast : s.value.toNat < 128
    · obtain ⟨b, hb, hv⟩ := varintEncodeRound_last hlast
      refine ⟨[b], Loop.run_leave hb _, ?_, by simp⟩
      rw [varint, if_pos (by rw [hv]; exact hlast), hv, List.length_singleton]
    · obtain ⟨b, hb, hv⟩ := varintEncodeRound_more (by omega) hs
      have ht := toNat_shift_of_lt hs
      have hpow : 2 ^ (7 * (k + 1 + 1)) = 2 ^ (7 * (k + 1)) * 128 := by rw [Nat.mul_succ, Nat.pow_add]
      obtain ⟨ds, hrun, hds, hlen⟩ := ih ⟨s.value.sshiftRight 7, s.bytes + 1, s.buf ++ [b]⟩
        (by simp only [ht]; omega) (by simp only [ht]; omega)
      refine ⟨b :: ds, ?_, ?_, by simp only [List.length_cons]; omega⟩
      · rw [Loop.run_again hb, hrun]
        simp [Nat.add_assoc, Nat.add_comm 1]
      · -- the value is its low seven bits and 128 times the rest
        have hsum : b.toNat % 128 + 128 * (s.value.toNat / 128) = s.value.toNat := by omega
        rw [varint, if_neg (by omega), hds, Option.map_some, ht, hsum, List.length_cons]

/-- `varint_encode` of a nonnegative `long long` finishes, with at most nine bytes. -/
theorem varintEncode_nonneg {value : BitVec 64} (hv : 0 ≤ value.toInt) :
    ∃ buf, varintEncode 9 value = some (buf.length, buf) ∧ varint buf = some (value.toNat, buf.length) ∧
      buf.length ≤ 9 := by
  have hlt : value.toNat < 2 ^ 63 := by
    rw [BitVec.toInt_eq_toNat_cond] at hv
    split at hv <;> omega
  obtain ⟨ds, hrun, hds, hlen⟩ := varintEncode_run 8 ⟨value, 0, []⟩ hlt hlt
  rw [List.nil_append, Nat.zero_add] at hrun
  exact ⟨ds, hrun, hds, hlen⟩

theorem varint_prefix {xs : List UInt8} {v n k : ℕ} (h : varint xs = some (v, n)) (hk : k < n) :
    varint (xs.take k) = none := by
  cases hp : varint (xs.take k) with
  | none => rfl
  | some r =>
    obtain ⟨w, m⟩ := r
    have hw := varint_append (xs.drop k) hp
    rw [List.take_append_drop, h] at hw
    cases hw
    have hm := (varint_bytes hp).2
    rw [List.length_take] at hm
    omega

theorem varintDecode_found {buf : List UInt8} {v len : ℕ} (h : varint buf = some (v, buf.length)) (h10 : buf.length ≤ 10)
    (hlen : buf.length ≤ len) (rest : List UInt8) :
    varintDecode (buf ++ rest) len = .found (v % 2 ^ 64) buf.length := by
  have hpos := (varint_bytes h).1
  have hw : varint ((varintWindow (buf ++ rest) len).take 10) = some (v, buf.length) := by
    rw [varintWindow, if_neg (by omega)]
    exact varint_take (varint_take (varint_append rest h) hlen) h10
  rw [varintDecode_eq, hw]

theorem varintDecode_short {buf : List UInt8} {v n : ℕ} (h : varint buf = some (v, buf.length)) (h10 : buf.length ≤ 10)
    (hn : 0 < n) (hlt : n < buf.length) (rest : List UInt8) : varintDecode (buf.take n ++ rest) n = .short := by
  have hl : (buf.take n).length = n := by rw [List.length_take, Nat.min_eq_left hlt.le]
  have hwin : varintWindow (buf.take n ++ rest) n = buf.take n := by
    rw [varintWindow, if_neg (by omega), List.take_append_of_le_length (by omega), List.take_of_length_le (by omega)]
  have hnone : varint ((varintWindow (buf.take n ++ rest) n).take 10) = none := by
    rw [hwin, List.take_of_length_le (by omega)]
    exact varint_prefix h hlt
  rw [varintDecode_eq, hnone, hwin, hl]
  simp only [List.length_append, hl]
  rw [if_neg (by omega), if_neg (by omega)]

/-- Every nonnegative value comes back from its bytes, and no proper prefix of them is taken for a varint. -/
theorem varint_roundTrip (value : BitVec 64) (hv : 0 ≤ value.toInt) :
    ∃ fuel bytes buf, varintEncode fuel value = some (bytes, buf) ∧ buf.length = bytes ∧ 1 ≤ bytes ∧ bytes ≤ 9 ∧
      ∀ rest, (∀ len, bytes ≤ len → varintDecode (buf ++ rest) len = .found value.toNat bytes) ∧
        ∀ n, 0 < n → n < bytes → varintDecode (buf.take n ++ rest) n = .short := by
  obtain ⟨buf, hrun, hdigits, hlen⟩ := varintEncode_nonneg hv
  refine ⟨9, buf.length, buf, hrun, rfl, (varint_bytes hdigits).1, hlen, fun rest => ⟨?_, ?_⟩⟩
  · intro len hl
    rw [varintDecode_found hdigits (by omega) hl, Nat.mod_eq_of_lt value.isLt]
  · intro n hn hlt
    exact varintDecode_short hdigits (by omega) hn hlt rest

theorem varint_roundTrip_300 :
    0 ≤ (300 : BitVec 64).toInt ∧
      ∃ fuel bytes buf, varintEncode fuel 300 = some (bytes, buf) ∧ buf.length = bytes ∧ 1 ≤ bytes ∧ bytes ≤ 9 ∧
        ∀ rest, (∀ len, bytes ≤ len → varintDecode (buf ++ rest) len = .found 300 bytes) ∧
          ∀ n, 0 < n → n < bytes → varintDecode (buf.take n ++ rest) n = .short :=
  ⟨by decide, varint_roundTrip 300 (by decide)⟩

example : varintEncode 2 300 = some (2, [0xAC, 0x02]) := by decide

theorem varintEncodeRound_negative {s : VarintEncode} (h : s.value.msb = true) :
    ∃ b t, varintEncodeRound s = .inl ⟨t, s.bytes + 1, s.buf ++ [b]⟩ ∧ t.msb = true := by
  -- a negative value stays negative under the shift, so the loop writes one byte after another
  have ht : (s.value.sshiftRight 7).msb = true := by rw [BitVec.msb_sshiftRight, h]
  have hz : ¬s.value.sshiftRight 7 = 0 := by
    intro h0
    rw [h0] at ht
    cases ht
  exact ⟨_, _, if_neg hz, ht⟩

theorem msb_of_negative {value : BitVec 64} (hv : value.toInt < 0) : value.msb = true := by
  rw [BitVec.msb_eq_toInt]
  exact decide_eq_true hv

theorem varintEncode_negative {value : BitVec 64} (hv : value.toInt < 0) (fuel : ℕ) : varintEncode fuel value = none := by
  unfold varintEncode
  apply Loop.run_none_of_trapped varintEncodeRound (fun s => s.value.msb = true)
  · intro s hs
    obtain ⟨b, t, hr, ht⟩ := varintEncodeRound_negative hs
    exact ⟨_, hr, ht⟩
  · exact msb_of_negative hv

/-- `varint_encode` of a negative value writes past the end of every buffer. -/
theorem varintEncode_overruns {value : BitVec 64} (hv : value.toInt < 0) (n : ℕ) :
    ∃ s, Loop.Visits varintEncodeRound ⟨value, 0, []⟩ s ∧ s.value.msb = true ∧ s.buf.length = n := by
  induction n with
  | zero => exact ⟨_, .refl _ _, msb_of_negative hv, rfl⟩
  | succ n ih =>
    obtain ⟨s, hs, hm, hl⟩ := ih
    obtain ⟨b, t, hr, ht⟩ := varintEncodeRound_negative hm
    exact ⟨_, hs.round hr, ht, by rw [List.length_append, hl, List.length_singleton]⟩

/-- `varint_encode` finishes with at most the ten bytes `varint_decode` reads, which give the value back. -/
def VarintEncodesBack (value : BitVec 64) : Prop :=
  ∃ fuel bytes buf, varintEncode fuel value = some (bytes, buf) ∧ buf.length = bytes ∧ bytes ≤ 10 ∧
    varintDecode buf bytes = .found value.toNat bytes

/-- No negative value is written and read back. -/
theorem not_varintEncodesBack (value : BitVec 64) (hv : value.toInt < 0) : ¬VarintEncodesBack value := by
  rintro ⟨fuel, bytes, buf, hrun, _⟩
  rw [varintEncode_negative hv fuel] at hrun
  cases hrun

theorem not_varintEncodesBack_300 : (-300 : BitVec 64).toInt < 0 ∧ ¬VarintEncodesBack (-300) :=
  ⟨by decide, not_varintEncodesBack (-300) (by decide)⟩

theorem varintEncode_minus_one : ¬∀ value : BitVec 64, value.toInt < 0 → VarintEncodesBack value := by
  intro h
  obtain ⟨fuel, bytes, buf, hrun, _⟩ := h (-1) (by decide)
  rw [varintEncode_negative (by decide) fuel] at hrun
  cases hrun

end Yjc.Base
