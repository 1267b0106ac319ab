import Yjc.Lib.Rounds
import Yjc.Lib.SecureHash
import Mathlib.Data.List.GetD
import Mathlib.Tactic.FinCases

/-! The compression function of `util/sha256.c`, whose eight words stay in their places while the names go round. -/

namespace Yjc.Sha256
open Mem Rounds
open SecureHash (Word)

def be32dec (p : List UInt8) : Word :=
  let at_ (i : ℕ) : Word := (p.getD i 0).toBitVec.setWidth 32
  at_ 3 + (at_ 2 <<< 8) + (at_ 1 <<< 16) + (at_ 0 <<< 24)

def be32enc (x : Word) : List UInt8 := [24, 16, 8, 0].map fun n => UInt8.ofBitVec (((x >>> n) &&& 0xff).setWidth 8)

def be32encVect (src : List Word) : List UInt8 := src.flatMap be32enc

def be32decVect (src : List UInt8) (len : ℕ) : List Word := (List.range (len / 4)).map fun i => be32dec (src.drop (i * 4))

def ch (x y z : Word) : Word := (x &&& (y ^^^ z)) ^^^ z

def maj (x y z : Word) : Word := (x &&& (y ||| z)) ||| (y &&& z)

def shr (x : Word) (n : ℕ) : Word := x >>> n

def rotr (x : Word) (n : ℕ) : Word := (x >>> n) ||| (x <<< (32 - n))

def S0 (x : Word) : Word := rotr x 2 ^^^ rotr x 13 ^^^ rotr x 22

def S1 (x : Word) : Word := rotr x 6 ^^^ rotr x 11 ^^^ rotr x 25

def s0 (x : Word) : Word := rotr x 7 ^^^ rotr x 18 ^^^ shr x 3

def s1 (x : Word) : Word := rotr x 17 ^^^ rotr x 19 ^^^ shr x 10

/-- `RND`, where the arguments are places of `S`. -/
def rnd (S : Registers Word 8) (a b c d e f g h : Fin 8) (k : Word) : Registers Word 8 :=
  let t0 := S.get h + S1 (S.get e) + ch (S.get e) (S.get f) (S.get g) + k
  let t1 := S0 (S.get a) + maj (S.get a) (S.get b) (S.get c)
  let S := S.set d (S.get d + t0)
  S.set h (t0 + t1)

/-- The index `(64 + j - i) % 8` of `RNDr`. -/
def place (i j : ℕ) : Fin 8 := ⟨(64 + j - i) % 8, Nat.mod_lt _ (Nat.zero_lt_succ 7)⟩

def rndr (S : Registers Word 8) (W : List Word) (i : ℕ) (k : Word) : Registers Word 8 :=
  rnd S (place i 0) (place i 1) (place i 2) (place i 3) (place i 4) (place i 5) (place i 6) (place i 7) (W.getD i 0 + k)

def constants : List Word := [
  0x428a2f98, 0x71374491, 0xb5c0fbcf, 0xe9b5dba5, 0x3956c25b, 0x59f111f1, 0x923f82a4, 0xab1c5ed5,
  0xd807aa98, 0x12835b01, 0x243185be, 0x550c7dc3, 0x72be5d74, 0x80deb1fe, 0x9bdc06a7, 0xc19bf174,
  0xe49b69c1, 0xefbe4786, 0x0fc19dc6, 0x240ca1cc, 0x2de92c6f, 0x4a7484aa, 0x5cb0a9dc, 0x76f988da,
  0x983e5152, 0xa831c66d, 0xb00327c8, 0xbf597fc7, 0xc6e00bf3, 0xd5a79147, 0x06ca6351, 0x14292967,
  0x27b70a85, 0x2e1b2138, 0x4d2c6dfc, 0x53380d13, 0x650a7354, 0x766a0abb, 0x81c2c92e, 0x92722c85,
  0xa2bfe8a1, 0xa81a664b, 0xc24b8b70, 0xc76c51a3, 0xd192e819, 0xd6990624, 0xf40e3585, 0x106aa070,
  0x19a4c116, 0x1e376c08, 0x2748774c, 0x34b0bcb5, 0x391c0cb3, 0x4ed8aa4a, 0x5b9cca4f, 0x682e6ff3,
  0x748f82ee, 0x78a5636f, 0x84c87814, 0x8cc70208, 0x90befffa, 0xa4506ceb, 0xbef9a3f7, 0xc67178f2]

/-- The loop over the schedule, where `i` is the number of words so far. -/
def schedule (W : List Word) : ℕ → List Word
  | 0 => W
  | n + 1 =>
    let W := schedule W n
    let i := W.length
    W ++ [s1 (W.getD (i - 2) 0) + W.getD (i - 7) 0 + s0 (W.getD (i - 15) 0) + W.getD (i - 16) 0]

def transform (state : Registers Word 8) (block : List UInt8) : Registers Word 8 :=
  let W := schedule (be32decVect block 64) 48
  let S := constants.zipIdx.foldl (fun S (k, i) => rndr S W i k) state
  Vector.ofFn fun i => state.get i + S.get i

/-! ## Words and bytes -/

theorem be32dec_eq (p : List UInt8) : be32dec p = SecureHash.word ((List.range 4).map fun i => p.getD i 0) := by
  refine BitVec.eq_of_toNat_eq ?_
  have h (i : ℕ) := (p.getD i 0).toNat_lt
  have h0 := h 0
  have h1 := h 1
  have h2 := h 2
  have h3 := h 3
  show _ = (SecureHash.word [p.getD 0 0, p.getD 1 0, p.getD 2 0, p.getD 3 0]).toNat
  rw [SecureHash.toNat_word, be32dec]
  simp only [BitVec.toNat_add, BitVec.toNat_shiftLeft, BitVec.toNat_setWidth, UInt8.toNat_toBitVec, Nat.shiftLeft_eq]
  omega

theorem be32enc_eq (x : Word) : be32enc x = SecureHash.wordBytes x := by
  have hbyte (n : ℕ) : UInt8.ofBitVec (((x >>> n) &&& 0xff).setWidth 8) = UInt8.ofNat (x.toNat / 2 ^ n) := by
    have hmask : BitVec.toNat (0xff : Word) = 2 ^ 8 - 1 := rfl
    refine UInt8.toNat_inj.mp ?_
    rw [UInt8.toNat_ofBitVec, BitVec.toNat_setWidth, BitVec.toNat_and, hmask, Nat.and_two_pow_sub_one_eq_mod, BitVec.toNat_ushiftRight,
      Nat.shiftRight_eq_div_pow, Nat.mod_mod, UInt8.toNat_ofNat']
  simp only [be32enc, List.map_cons, List.map_nil, hbyte, SecureHash.wordBytes, LittleEndian.bytes, List.reverse_cons, List.reverse_nil,
    List.nil_append, List.cons_append, Nat.div_div_eq_div_mul, ← Nat.pow_add, Nat.pow_zero, Nat.div_one]

theorem be32encVect_eq (src : List Word) : be32encVect src = src.flatMap SecureHash.wordBytes :=
  congrArg (List.flatMap · src) (funext be32enc_eq)

theorem be32decVect_eq (block : List UInt8) : be32decVect block 64 = (List.range 16).map (SecureHash.blockWord block) := by
  refine List.map_congr_left fun i _ => ?_
  rw [be32dec_eq, SecureHash.blockWord]
  refine congrArg SecureHash.word (List.map_congr_left fun j _ => ?_)
  rw [List.getD_eq_getElem?_getD, List.getD_eq_getElem?_getD, List.getElem?_drop, Nat.mul_comm]

theorem ch_eq (x y z : Word) : ch x y z = SecureHash.ch x y z := by
  ext i hi
  simp only [ch, SecureHash.ch, BitVec.getElem_xor, BitVec.getElem_and, BitVec.getElem_not]
  cases x[i] <;> cases y[i] <;> cases z[i] <;> rfl

theorem maj_eq (x y z : Word) : maj x y z = SecureHash.maj x y z := by
  ext i hi
  simp only [maj, SecureHash.maj, BitVec.getElem_xor, BitVec.getElem_and, BitVec.getElem_or]
  cases x[i] <;> cases y[i] <;> cases z[i] <;> rfl

theorem rotr_eq (x : Word) {n : ℕ} (hn : n < 32) : rotr x n = x.rotateRight n := SecureHash.rotateRight_eq x hn

theorem S0_eq (x : Word) : S0 x = SecureHash.bigSigma0 x := by
  rw [S0, rotr_eq x (by decide), rotr_eq x (by decide), rotr_eq x (by decide), SecureHash.bigSigma0]

theorem S1_eq (x : Word) : S1 x = SecureHash.bigSigma1 x := by
  rw [S1, rotr_eq x (by decide), rotr_eq x (by decide), rotr_eq x (by decide), SecureHash.bigSigma1]

theorem s0_eq (x : Word) : s0 x = SecureHash.sigma0 x := by
  rw [s0, rotr_eq x (by decide), rotr_eq x (by decide), shr, SecureHash.sigma0]

theorem s1_eq (x : Word) : s1 x = SecureHash.sigma1 x := by
  rw [s1, rotr_eq x (by decide), rotr_eq x (by decide), shr, SecureHash.sigma1]

/-! ## The schedule and the constants -/

theorem getD_map_range (w : ℕ → Word) {n j : ℕ} (hj : j < n) : ((List.range n).map w).getD j 0 = w j := by
  rw [List.getD_eq_getElem?_getD, List.getElem?_map, List.getElem?_range hj, Option.map_some, Option.getD_some]

theorem schedule_eq (w : ℕ → Word) (n : ℕ) :
    schedule ((List.range 16).map w) n = (List.range (16 + n)).map (SecureHash.sha256Word w) := by
  induction n with
  | zero =>
    refine List.map_congr_left fun t ht => ?_
    rw [SecureHash.sha256Word, if_pos (List.mem_range.mp ht)]
  | succ n ih =>
    rw [schedule, ih, List.length_map, List.length_range, getD_map_range _ (by omega), getD_map_range _ (by omega),
      getD_map_range _ (by omega), getD_map_range _ (by omega), ← Nat.add_assoc, List.range_succ, List.map_append, List.map_singleton,
      SecureHash.sha256Word.eq_1 w (16 + n), if_neg (by omega), s1_eq, s0_eq]

theorem rootFraction_eq {e p n : ℕ} {x : Word} (he : e ≠ 0) (hle : (n * 2 ^ 32 + x.toNat) ^ e ≤ p * 2 ^ (32 * e))
    (hlt : p * 2 ^ (32 * e) < (n * 2 ^ 32 + x.toNat + 1) ^ e) : SecureHash.rootFraction e p = x := by
  have hroot : Nat.nthRoot e (p * 2 ^ (32 * e)) = n * 2 ^ 32 + x.toNat :=
    Nat.le_antisymm (Nat.lt_succ_iff.mp ((Nat.nthRoot_lt_iff he).mpr hlt)) ((Nat.le_nthRoot_iff he).mpr hle)
  refine BitVec.eq_of_toNat_eq ?_
  rw [SecureHash.rootFraction, hroot, BitVec.toNat_ofNat, Nat.mul_add_mod_self_right, Nat.mod_eq_of_lt x.isLt]

theorem constants_bounds : ∀ t < 64, ∃ n < 8, (n * 2 ^ 32 + (constants.getD t 0).toNat) ^ 3 ≤ SecureHash.primes.getD t 0 * 2 ^ (32 * 3) ∧
    SecureHash.primes.getD t 0 * 2 ^ (32 * 3) < (n * 2 ^ 32 + (constants.getD t 0).toNat + 1) ^ 3 := by decide

theorem constants_eq {t : ℕ} (ht : t < 64) : constants.getD t 0 = SecureHash.rootFraction 3 (SecureHash.primes.getD t 0) := by
  obtain ⟨n, -, hle, hlt⟩ := constants_bounds t ht
  exact (rootFraction_eq (Nat.succ_ne_zero 2) hle hlt).symm

/-! ## The rounds -/

variable {S : Registers Word 8} {i : ℕ}

theorem place_eq (hi : i < 64) (j : Fin 8) : place i j = j - Fin.ofNat 8 i := by
  refine Fin.ext ?_
  rw [Fin.val_sub, Fin.val_ofNat]
  show (64 + j.val - i) % 8 = _
  omega

theorem rndr_get (hi : i < 64) (W : List Word) (k : Word) :
    (rndr S W i k).get = inPlace (Fin.ofNat 8 i) (SecureHash.sha256Mix (W.getD i 0 + k)) S.get := by
  have hplace (j : Fin 8) : S.get (place i j) = view (Fin.ofNat 8 i) S.get j := congrArg S.get (place_eq hi j)
  rw [rndr, rnd, get_set, get_set, S1_eq, ch_eq, S0_eq, maj_eq]
  unfold inPlace SecureHash.sha256Mix
  rw [update_inPlace, update_inPlace, view_add, ← place_eq hi 3, ← place_eq hi 7, ← hplace, ← hplace, ← hplace, ← hplace, ← hplace,
    ← hplace, ← hplace, ← hplace]
  rfl

theorem rounds_get (W ks : List Word) (m : ℕ) (hm : m + ks.length ≤ 64) (S : Registers Word 8) :
    ((ks.zipIdx m).foldl (fun S (k, i) => rndr S W i k) S).get =
      run SecureHash.sha256Mix (Fin.ofNat 8 m) ((ks.zipIdx m).map fun (k, i) => W.getD i 0 + k) S.get := by
  induction ks generalizing m S with
  | nil => rfl
  | cons k ks ih =>
    rw [List.length_cons] at hm
    rw [List.zipIdx_cons, List.foldl_cons, List.map_cons, run, ih (m + 1) (by omega), rndr_get (by omega), ofNat_succ, add_comm]

theorem shift_mix (w : ℕ → Word) {t : ℕ} (T : Fin 8 → Word) :
    shift (SecureHash.sha256Mix (SecureHash.sha256Word w t + SecureHash.rootFraction 3 (SecureHash.primes.getD t 0)) T) = SecureHash.sha256Round w T t := by
  have hsum (a b : Word) : a + (SecureHash.sha256Word w t + b) = a + b + SecureHash.sha256Word w t := by
    rw [← BitVec.add_assoc, BitVec.add_assoc, BitVec.add_comm (SecureHash.sha256Word w t), ← BitVec.add_assoc]
  funext j
  unfold SecureHash.sha256Round shift SecureHash.sha256Mix
  simp only [hsum]
  fin_cases j <;> rfl

theorem constants_length : constants.length = 64 := rfl

theorem addends_eq (W ks : List Word) :
    (ks.zipIdx.map fun (k, i) => W.getD i 0 + k) = (List.range ks.length).map fun t => W.getD t 0 + ks.getD t 0 := by
  -- what the rounds add to their sums
  refine List.ext_getElem ?_ fun t ht _ => ?_
  · rw [List.length_map, List.length_zipIdx, List.length_map, List.length_range]
  · rw [List.length_map, List.length_zipIdx] at ht
    rw [List.getElem_map, List.getElem_map, List.getElem_range, List.getElem_zipIdx, Nat.zero_add, List.getD_eq_getElem ks _ ht]

theorem transform_get (state : Registers Word 8) (block : List UInt8) :
    (transform state block).get = SecureHash.sha256Compress state.get block := by
  have hrounds := rounds_get ((List.range 64).map (SecureHash.sha256Word (SecureHash.blockWord block))) constants 0 (by decide) state
  have hzero : Fin.ofNat 8 0 = 0 := rfl
  have haddends : ((List.range 64).map fun t => ((List.range 64).map (SecureHash.sha256Word (SecureHash.blockWord block))).getD t 0 +
      constants.getD t 0) = (List.range 64).map fun t =>
      SecureHash.sha256Word (SecureHash.blockWord block) t + SecureHash.rootFraction 3 (SecureHash.primes.getD t 0) := by
    refine List.map_congr_left fun t ht => ?_
    rw [getD_map_range _ (List.mem_range.mp ht), constants_eq (List.mem_range.mp ht)]
  rw [addends_eq, constants_length, haddends, hzero, run_eq _ (by rw [List.length_map, List.length_range]; decide),
    List.foldl_map] at hrounds
  funext j
  rw [transform, be32decVect_eq, schedule_eq, SecureHash.sha256Compress, BitVec.add_comm]
  show (Vector.ofFn _)[j.val] = _
  rw [Vector.getElem_ofFn]
  exact congrArg (state.get j + ·) ((congrFun hrounds j).trans
    (congrArg (fun f => (List.range 64).foldl f state.get j) (funext fun T => funext fun t => shift_mix _ T)))

end Yjc.Sha256
