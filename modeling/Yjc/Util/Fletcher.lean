import Yjc.Lib.CInt
import Yjc.Lib.Mem
import Mathlib.Data.Int.ModEq
import Mathlib.Tactic.Linarith
import Mathlib.Tactic.LinearCombination
import Mathlib.Tactic.Ring

/-! `fletcher_checksum` of `util/checksum.c`. -/

namespace Yjc.Fletcher
open Mem

/-- The value of an `int` expression; without one it has overflowed. -/
def int (z : ℤ) : Option ℤ := if -2 ^ 31 ≤ z ∧ z < 2 ^ 31 then some z else none

def modx : ℕ := 4102

def fletcherChecksumValidate : UInt16 := 0xffff

/-- The inner loop, with `c0` and `c1`. -/
def sumBytes : List UInt8 → ℤ → ℤ → Option (ℤ × ℤ)
  | [], c0, c1 => some (c0, c1)
  | b :: p, c0, c1 => do
    let c0 ← int (c0 + b.toNat)
    let c1 ← int (c1 + c0)
    sumBytes p c0 c1

/-- The outer loop, where `p` is what is left; `%` truncates. -/
def sumBlocks : ℕ → List UInt8 → ℤ → ℤ → Option (ℤ × ℤ)
  | 0, _, _, _ => none
  | fuel + 1, p, c0, c1 =>
    if p.length = 0 then some (c0, c1)
    else do
      let partialLen := min p.length modx
      let (c0, c1) ← sumBytes (p.take partialLen) c0 c1
      sumBlocks fuel (p.drop partialLen) (c0.tmod 255) (c1.tmod 255)

/-- The product and the difference are of type `size_t`. -/
def checkX (len offset : ℕ) (c0 c1 : ℤ) : Option ℤ :=
  let n : ℤ := ((len : ℤ) - offset - 1) % 2 ^ 64
  let x := (cInt ((n * c0 % 2 ^ 64 - c1) % 2 ^ 64)).tmod 255
  if x ≤ 0 then int (x + 255) else some x

def checkY (c0 x : ℤ) : Option ℤ := do
  let y ← int (510 - c0)
  let y ← int (y - x)
  if y > 255 then int (y - 255) else some y

def htons (v : ℕ) : ℕ := (v % 2 ^ 8) <<< 8 ||| (v >>> 8) % 2 ^ 8

/-- `fletcher_checksum` of the whole of `buffer`; without a result an `int` has overflowed, the assertion has failed or
the memory has been left. -/
def fletcherChecksum (buffer : List UInt8) (offset : UInt16) : Option (ℕ × List UInt8) := do
  let len := buffer.length
  let buffer ←
    (if offset = fletcherChecksumValidate then some buffer
    else if offset.toNat < (len + 2 ^ 64 - 1) % 2 ^ 64 then write buffer offset.toNat [0, 0]
    else none)
  let (c0, c1) ← sumBlocks (len + 1) buffer 0 0
  let x ← checkX len offset.toNat c0 c1
  let y ← checkY c0 x
  if offset = fletcherChecksumValidate then some (((c1.toNat <<< 8) + c0.toNat) % 2 ^ 16, buffer)
  else do
    let buffer ← write buffer offset.toNat [UInt8.ofNat x.toNat]
    let buffer ← write buffer (offset.toNat + 1) [UInt8.ofNat y.toNat]
    some (htons ((x.toNat <<< 8) ||| (y.toNat &&& 0xFF)), buffer)

/-! ## The two sums -/

def byteSum : List UInt8 → ℤ
  | [] => 0
  | b :: p => b.toNat + byteSum p

def weightedSum : List UInt8 → ℤ
  | [] => 0
  | b :: p => (p.length + 1) * b.toNat + weightedSum p

variable {p q : List UInt8} {c0 c1 : ℤ}

theorem byteSum_append (p q : List UInt8) : byteSum (p ++ q) = byteSum p + byteSum q := by
  induction p with
  | nil => exact (Int.zero_add _).symm
  | cons b p ih => rw [List.cons_append, byteSum, byteSum, ih, Int.add_assoc]

theorem weightedSum_append (p q : List UInt8) :
    weightedSum (p ++ q) = weightedSum p + q.length * byteSum p + weightedSum q := by
  induction p with
  | nil => rw [List.nil_append, weightedSum, byteSum, Int.mul_zero, Int.zero_add, Int.zero_add]
  | cons b p ih =>
    rw [List.cons_append, weightedSum, weightedSum, byteSum, ih, List.length_append, Int.natCast_add]
    ring

theorem int_of_bounds {z : ℤ} (hlow : -2 ^ 31 ≤ z) (hhigh : z < 2 ^ 31) : int z = some z := if_pos ⟨hlow, hhigh⟩

theorem sumBytes_eq (h0 : 0 ≤ c0) (h1 : 0 ≤ c1)
    (hbound : 2 * (c1 + p.length * c0) + 255 * (p.length * (p.length + 1)) < 2 ^ 32) (hc0 : c0 + 255 * p.length < 2 ^ 31) :
    sumBytes p c0 c1 = some (c0 + byteSum p, c1 + p.length * c0 + weightedSum p) := by
  -- the bound holds with `0xff` in every byte that is left
  induction p generalizing c0 c1 with
  | nil => simp [sumBytes, byteSum, weightedSum]
  | cons b p ih =>
    have hb := b.toNat_lt
    rw [List.length_cons, Int.natCast_add, Int.natCast_one] at hbound hc0
    obtain ⟨k, hk⟩ : ∃ k : ℤ, k = p.length := ⟨_, rfl⟩
    have hk0 : 0 ≤ k := by omega
    have hmul : 0 ≤ k * c0 := Int.mul_nonneg hk0 h0
    rw [← hk] at hbound hc0
    have hnext : c1 + (c0 + b.toNat) < 2 ^ 31 := by nlinarith
    have hrest : 2 * (c1 + (c0 + b.toNat) + p.length * (c0 + b.toNat)) + 255 * (p.length * (p.length + 1)) < 2 ^ 32 := by
      rw [← hk]
      have hslack : 0 ≤ (k + 1) * (255 - b.toNat) := Int.mul_nonneg (by omega) (by omega)
      nlinarith
    rw [sumBytes, int_of_bounds (by omega) (by omega), Option.bind_eq_bind, Option.bind_some, int_of_bounds (by omega) hnext,
      Option.bind_some, ih (by omega) (by omega) hrest (by omega), byteSum, weightedSum, List.length_cons,
      Int.natCast_add, Int.natCast_one]
    congr 2
    · ring
    · ring

theorem byteSum_nonneg (p : List UInt8) : 0 ≤ byteSum p := by
  induction p with
  | nil => exact Int.le_refl 0
  | cons b p ih =>
    rw [byteSum]
    omega

theorem weightedSum_nonneg (p : List UInt8) : 0 ≤ weightedSum p := by
  induction p with
  | nil => exact Int.le_refl 0
  | cons b p ih =>
    have hmul : 0 ≤ ((p.length : ℤ) + 1) * b.toNat := Int.mul_nonneg (by omega) (by omega)
    rw [weightedSum]
    omega

theorem sumBlocks_eq {fuel : ℕ} (hfuel : q.length < fuel) (p : List UInt8) :
    sumBlocks fuel q (byteSum p % 255) (weightedSum p % 255) =
      some (byteSum (p ++ q) % 255, weightedSum (p ++ q) % 255) := by
  -- the sums are taken modulo 255 before they overflow
  induction fuel generalizing p q with
  | zero => exact absurd hfuel (Nat.not_lt_zero _)
  | succ fuel ih =>
    rw [sumBlocks]
    split_ifs with hnil
    · rw [List.length_eq_zero_iff.mp hnil, List.append_nil]
    · obtain ⟨blk, rest, hq, hblk⟩ : ∃ blk rest, q = blk ++ rest ∧ blk.length = min q.length modx :=
        exists_append (Nat.min_le_left ..)
      have hlen : q.length = blk.length + rest.length := by rw [hq, List.length_append]
      have hsmall : blk.length ≤ 4102 := hblk ▸ Nat.min_le_right ..
      have hsum : sumBytes blk (byteSum p % 255) (weightedSum p % 255) =
          some (byteSum p % 255 + byteSum blk, weightedSum p % 255 + blk.length * (byteSum p % 255) + weightedSum blk) := by
        have h0 : byteSum p % 255 ≤ 254 := by omega
        have h1 : weightedSum p % 255 ≤ 254 := by omega
        have hmul : (blk.length : ℤ) * (byteSum p % 255) ≤ 4102 * 254 :=
          Int.mul_le_mul (by omega) h0 (by omega) (by omega)
        have hsq : (blk.length : ℤ) * (blk.length + 1) ≤ 4102 * 4103 :=
          Int.mul_le_mul (by omega) (by omega) (by omega) (by omega)
        exact sumBytes_eq (by omega) (by omega) (by omega) (by omega)
      have hpos : 0 < q.length := Nat.pos_of_ne_zero hnil
      have hone : 1 ≤ blk.length := by
        rw [hblk, modx]
        omega
      have h0 : (byteSum p % 255 + byteSum blk).tmod 255 = byteSum (p ++ blk) % 255 := by
        have hnonneg := byteSum_nonneg blk
        rw [Int.tmod_eq_emod_of_nonneg (by omega), byteSum_append, Int.emod_add_emod]
      have h1 : (weightedSum p % 255 + blk.length * (byteSum p % 255) + weightedSum blk).tmod 255 = weightedSum (p ++ blk) % 255 := by
        have hnonneg := weightedSum_nonneg blk
        have hmul : 0 ≤ (blk.length : ℤ) * (byteSum p % 255) := Int.mul_nonneg (by omega) (by omega)
        rw [Int.tmod_eq_emod_of_nonneg (by omega), weightedSum_append]
        have hp : weightedSum p % 255 ≡ weightedSum p [ZMOD 255] := Int.mod_modEq _ _
        have hc : blk.length * (byteSum p % 255) ≡ blk.length * byteSum p [ZMOD 255] := (Int.mod_modEq _ _).mul_left _
        exact (hp.add hc).add_right _
      dsimp only
      rw [← hblk, hq, List.take_left, List.drop_left, hsum]
      change sumBlocks fuel rest (Int.tmod _ 255) (Int.tmod _ 255) = _
      rw [h0, h1, ih (by omega), List.append_assoc]

/-! ## The check bytes -/

theorem checkX_some (len offset : ℕ) (c0 c1 : ℤ) :
    ∃ x, checkX len offset c0 c1 = some x ∧ 1 ≤ x ∧ x ≤ 255 ∧
      x ≡ cInt ((((len : ℤ) - offset - 1) % 2 ^ 64 * c0 % 2 ^ 64 - c1) % 2 ^ 64) [ZMOD 255] := by
  unfold checkX
  dsimp only
  generalize cInt ((((len : ℤ) - offset - 1) % 2 ^ 64 * c0 % 2 ^ 64 - c1) % 2 ^ 64) = v
  have hlow : -255 < v.tmod 255 := Int.lt_tmod_of_pos _ (by decide)
  have hhigh : v.tmod 255 < 255 := Int.tmod_lt_of_pos _ (by decide)
  have hmod : v.tmod 255 ≡ v [ZMOD 255] := by
    have hdiv := Int.tmod_add_mul_tdiv v 255
    exact Int.modEq_iff_dvd.mpr ⟨v.tdiv 255, by omega⟩
  split_ifs with hr0
  · refine ⟨v.tmod 255 + 255, int_of_bounds (by omega) (by omega), by omega, by omega, ?_⟩
    exact (Int.modEq_iff_dvd.mpr ⟨-1, by ring⟩).trans hmod
  · exact ⟨v.tmod 255, rfl, by omega, by omega, hmod⟩

theorem cInt_difference {len offset n : ℕ} (hn : len = offset + 1 + n) (hlen : len ≤ 2 ^ 23) (h0 : 0 ≤ c0) (h0' : c0 ≤ 254)
    (h1 : 0 ≤ c1) (h1' : c1 ≤ 254) :
    cInt ((((len : ℤ) - offset - 1) % 2 ^ 64 * c0 % 2 ^ 64 - c1) % 2 ^ 64) = n * c0 - c1 := by
  -- the difference of type `size_t` is read as an `int`, which it fits
  have hmul : (n : ℤ) * c0 ≤ 2 ^ 23 * 254 := Int.mul_le_mul (by omega) h0' h0 (by omega)
  have hmul0 : 0 ≤ (n : ℤ) * c0 := Int.mul_nonneg (by omega) h0
  rw [show ((len : ℤ) - offset - 1) % 2 ^ 64 = n by omega]
  generalize (n : ℤ) * c0 = w at hmul hmul0
  rw [cInt, Int.bmod_def]
  omega

theorem checkY_eq {x : ℤ} (h0 : 0 ≤ c0) (h0' : c0 ≤ 254) (hx : 1 ≤ x) (hx' : x ≤ 255) :
    ∃ y, checkY c0 x = some y ∧ 1 ≤ y ∧ y ≤ 255 ∧ c0 + x + y ≡ 0 [ZMOD 255] := by
  unfold checkY
  rw [int_of_bounds (by omega) (by omega), Option.bind_eq_bind, Option.bind_some, int_of_bounds (by omega) (by omega), 
    Option.bind_some]
  split_ifs with hy
  · refine ⟨510 - c0 - x - 255, int_of_bounds (by omega) (by omega), by omega, by omega, ?_⟩
    exact Int.modEq_iff_dvd.mpr ⟨-1, by ring⟩
  · refine ⟨510 - c0 - x, rfl, by omega, by omega, ?_⟩
    exact Int.modEq_iff_dvd.mpr ⟨-2, by ring⟩

theorem sums_eq (p : List UInt8) : sumBlocks (p.length + 1) p 0 0 = some (byteSum p % 255, weightedSum p % 255) :=
  sumBlocks_eq (Nat.lt_succ_self _) []

theorem validate_eq (buffer : List UInt8) :
    fletcherChecksum buffer fletcherChecksumValidate =
      some ((((weightedSum buffer % 255).toNat <<< 8) + (byteSum buffer % 255).toNat) % 2 ^ 16, buffer) := by
  obtain ⟨x, hx, hx1, hx255, -⟩ :=
    checkX_some buffer.length fletcherChecksumValidate.toNat (byteSum buffer % 255) (weightedSum buffer % 255)
  obtain ⟨y, hy, -⟩ := checkY_eq (by omega : 0 ≤ byteSum buffer % 255) (by omega) hx1 hx255
  unfold fletcherChecksum
  dsimp only
  rw [if_pos rfl, Option.bind_eq_bind, Option.bind_some, sums_eq, Option.bind_eq_bind, Option.bind_some]
  dsimp only
  rw [hx, Option.bind_eq_bind, Option.bind_some, hy, Option.bind_some, if_pos rfl]

theorem generate_eq {pre post : List UInt8} {a b : UInt8} {offset : UInt16} (hoff : offset.toNat = pre.length)
    (hne : offset ≠ fletcherChecksumValidate) (hlen : pre.length + (2 + post.length) ≤ 2 ^ 23) :
    ∃ (c : ℕ) (x y : ℤ), fletcherChecksum (pre ++ ([a, b] ++ post)) offset =
        some (c, pre ++ ([UInt8.ofNat x.toNat, UInt8.ofNat y.toNat] ++ post)) ∧
      1 ≤ x ∧ x ≤ 255 ∧ 1 ≤ y ∧ y ≤ 255 ∧ byteSum (pre ++ ([0, 0] ++ post)) + x + y ≡ 0 [ZMOD 255] ∧
      x ≡ (post.length + 1) * byteSum (pre ++ ([0, 0] ++ post)) - weightedSum (pre ++ ([0, 0] ++ post)) [ZMOD 255] := by
  -- a first pass with zeros for the check bytes, which are then those that make both sums zero
  have hzero : write (pre ++ ([a, b] ++ post)) offset.toNat [0, 0] = some (pre ++ ([0, 0] ++ post)) := write_append _ hoff rfl
  have hlen0 : (pre ++ ([a, b] ++ post)).length = (pre ++ ([0, 0] ++ post)).length := by
    rw [List.length_append, List.length_append, List.length_append, List.length_append]
    rfl
  have hlength : (pre ++ ([0, 0] ++ post)).length = pre.length + (2 + post.length) := by
    rw [List.length_append, List.length_append]
    rfl
  obtain ⟨z, hz⟩ : ∃ z, z = pre ++ ([0, 0] ++ post) := ⟨_, rfl⟩
  rw [← hz] at hlen0 hlength hzero ⊢
  have hassert : offset.toNat < (z.length + 2 ^ 64 - 1) % 2 ^ 64 := by omega
  have hs : byteSum z % 255 ≡ byteSum z [ZMOD 255] := Int.mod_modEq _ _
  have hw : weightedSum z % 255 ≡ weightedSum z [ZMOD 255] := Int.mod_modEq _ _
  obtain ⟨x, hx, hx1, hx255, hxmod⟩ := checkX_some z.length offset.toNat (byteSum z % 255) (weightedSum z % 255)
  obtain ⟨y, hy, hy1, hy255, hymod⟩ := checkY_eq (by omega : 0 ≤ byteSum z % 255) (by omega) hx1 hx255
  have hn : z.length = offset.toNat + 1 + (post.length + 1) := by omega
  rw [cInt_difference hn (by omega) (by omega) (by omega) (by omega) (by omega), Int.natCast_add, Int.natCast_one] at hxmod
  refine ⟨htons ((x.toNat <<< 8) ||| (y.toNat &&& 0xFF)), x, y, ?_, hx1, hx255, hy1, hy255, ?_, ?_⟩
  · have hfirst : write z offset.toNat [UInt8.ofNat x.toNat] = some (pre ++ ([UInt8.ofNat x.toNat] ++ ([0] ++ post))) := by
      rw [hz]
      change write (pre ++ ([0] ++ ([0] ++ post))) _ _ = _
      exact write_append _ hoff rfl
    have hsecond : write (pre ++ ([UInt8.ofNat x.toNat] ++ ([0] ++ post))) (offset.toNat + 1) [UInt8.ofNat y.toNat] =
        some (pre ++ ([UInt8.ofNat x.toNat, UInt8.ofNat y.toNat] ++ post)) := by
      have happ : write ((pre ++ [UInt8.ofNat x.toNat]) ++ ([0] ++ post)) (offset.toNat + 1) [UInt8.ofNat y.toNat] =
          some ((pre ++ [UInt8.ofNat x.toNat]) ++ ([UInt8.ofNat y.toNat] ++ post)) :=
        write_append _ (by rw [List.length_append, hoff]; rfl) rfl
      rwa [List.append_assoc, List.append_assoc] at happ
    unfold fletcherChecksum
    dsimp only
    rw [if_neg hne, hlen0, if_pos hassert, hzero, Option.bind_eq_bind, Option.bind_some, sums_eq, Option.bind_eq_bind,
      Option.bind_some]
    dsimp only
    rw [hx, Option.bind_eq_bind, Option.bind_some, hy, Option.bind_some, if_neg hne, hfirst, Option.bind_some, hsecond,
      Option.bind_some]
  · exact ((hs.symm.add_right x).add_right y).trans hymod
  · exact hxmod.trans ((hs.mul_left _).sub hw)

theorem sums_check_bytes (pre post : List UInt8) (a b : UInt8) :
    byteSum (pre ++ ([a, b] ++ post)) = byteSum (pre ++ ([0, 0] ++ post)) + a.toNat + b.toNat ∧
      weightedSum (pre ++ ([a, b] ++ post)) =
        weightedSum (pre ++ ([0, 0] ++ post)) + (post.length + 2) * a.toNat + (post.length + 1) * b.toNat := by
  simp only [byteSum_append, weightedSum_append, List.length_append, List.length_cons, List.length_nil, byteSum, weightedSum,
    UInt8.toNat_zero, Int.natCast_add, Int.natCast_zero, Int.natCast_one]
  constructor
  · ring
  · ring

theorem toNat_ofNat {x : ℤ} (h : 0 ≤ x) (h' : x ≤ 255) : ((UInt8.ofNat x.toNat).toNat : ℤ) = x := by
  have hlt : x.toNat < 2 ^ 8 := by omega
  rw [UInt8.toNat_ofNat_of_lt' hlt, Int.toNat_of_nonneg h]

/-- What `fletcher_checksum` generates it accepts, and no `int` overflows on the way. -/
theorem fletcher_generated_validates (buffer : List UInt8) (offset : UInt16) (hlen : 2 ≤ buffer.length)
    (hlen' : buffer.length ≤ 2 ^ 23) (hoff : offset.toNat < buffer.length - 1) (hne : offset ≠ fletcherChecksumValidate) :
    ∃ c buffer', fletcherChecksum buffer offset = some (c, buffer') ∧ buffer'.length = buffer.length ∧
      (∀ i, i ≠ offset.toNat → i ≠ offset.toNat + 1 → buffer'[i]? = buffer[i]?) ∧
      fletcherChecksum buffer' fletcherChecksumValidate = some (0, buffer') := by
  obtain ⟨pre, rest, rfl, hpre⟩ := exists_append (show offset.toNat ≤ buffer.length by omega)
  rw [List.length_append] at hlen' hoff
  obtain ⟨old, post, rfl, hold⟩ := exists_append (show 2 ≤ rest.length by omega)
  obtain ⟨a, b, rfl⟩ := List.length_eq_two.mp hold
  rw [List.length_append, List.length_cons, List.length_singleton] at hlen'
  obtain ⟨c, x, y, hgen, hx1, hx255, hy1, hy255, hsum, hxmod⟩ := generate_eq hpre.symm hne hlen'
  obtain ⟨hbytes, hweights⟩ := sums_check_bytes pre post (UInt8.ofNat x.toNat) (UInt8.ofNat y.toNat)
  rw [toNat_ofNat (by omega) hx255, toNat_ofNat (by omega) hy255] at hbytes hweights
  refine ⟨c, _, hgen, ?_, fun i hi hi' => ?_, ?_⟩
  · rw [List.length_append, List.length_append, List.length_append, List.length_append]
    rfl
  · rcases Nat.lt_or_ge i pre.length with hlt | hge
    · rw [List.getElem?_append_left hlt, List.getElem?_append_left hlt]
    · have htwo : 2 ≤ i - pre.length := by omega
      rw [List.getElem?_append_right hge, List.getElem?_append_right hge, List.getElem?_append_right htwo,
        List.getElem?_append_right htwo]
      rfl
  · -- both sums of the buffer with its check bytes are zero modulo 255
    have hbyte0 : byteSum (pre ++ ([UInt8.ofNat x.toNat, UInt8.ofNat y.toNat] ++ post)) % 255 = 0 := by
      rw [hbytes]
      exact hsum
    have hweight0 : weightedSum (pre ++ ([UInt8.ofNat x.toNat, UInt8.ofNat y.toNat] ++ post)) % 255 = 0 := by
      rw [hweights]
      generalize byteSum (pre ++ ([0, 0] ++ post)) = s0 at *
      generalize weightedSum (pre ++ ([0, 0] ++ post)) = s1 at *
      have hmul : ((post.length : ℤ) + 1) * (s0 + x + y) ≡ (post.length + 1) * 0 [ZMOD 255] := hsum.mul_left _
      have hadd := (hmul.add hxmod).add_right (s1 - (post.length + 1) * s0)
      ring_nf at hadd ⊢
      exact hadd
    rw [validate_eq, hbyte0, hweight0]
    rfl

theorem fletcher_generated_validates_sample :
    ∃ c buffer', fletcherChecksum [1, 2, 3, 4, 5] 1 = some (c, buffer') ∧ buffer'.length = 5 ∧
      (∀ i, i ≠ 1 → i ≠ 1 + 1 → buffer'[i]? = [1, 2, 3, 4, 5][i]?) ∧
      fletcherChecksum buffer' fletcherChecksumValidate = some (0, buffer') :=
  fletcher_generated_validates [1, 2, 3, 4, 5] 1 (by decide) (by decide) (by decide) (by decide)

example : fletcherChecksum [1, 2, 3, 4, 5] 1 = some (0xe90c, [1, 12, 233, 4, 5]) := by decide

end Yjc.Fletcher
