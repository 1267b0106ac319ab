import Yjc.Lib.BlockStream
import Yjc.Lib.LittleEndian
import Mathlib.Analysis.SpecialFunctions.Pow.NthRootLemmas
import Mathlib.Data.Fin.VecNotation

/-! The hash SHA-256 of a whole message, and HMAC and PBKDF2 over a hash. -/

namespace Yjc.SecureHash
open Mem BlockStream
variable {k n : ℕ}

abbrev Word := BitVec 32

def word (bs : List UInt8) : Word := BitVec.ofNat 32 (LittleEndian.value bs.reverse)

def wordBytes (x : Word) : List UInt8 := (LittleEndian.bytes 4 x.toNat).reverse

/-- Word `t` of a block. -/
def blockWord (block : List UInt8) (t : ℕ) : Word := word ((List.range 4).map fun j => block.getD (4 * t + j) 0)

/-- What is behind a message of `n` bytes: a one bit, zeros and the number of bits, which fill the last block of 64 bytes. -/
def padding (n : ℕ) : List UInt8 := 0x80 :: List.replicate (zeros 64 8 n) 0 ++ (LittleEndian.bytes 8 (8 * n)).reverse

def digest (compress : (Fin k → Word) → List UInt8 → Fin k → Word) (iv : Fin k → Word) (msg : List UInt8) : List UInt8 :=
  (List.ofFn (chain 64 compress iv (msg ++ padding msg.length))).flatMap wordBytes

theorem length_wordBytes (x : Word) : (wordBytes x).length = 4 := by rw [wordBytes, List.length_reverse, LittleEndian.length_bytes]

theorem length_digest (compress : (Fin k → Word) → List UInt8 → Fin k → Word) (iv : Fin k → Word) (msg : List UInt8) :
    (digest compress iv msg).length = k * 4 := by
  rw [digest, List.length_flatMap, List.map_congr_left fun x _ => length_wordBytes x, List.map_const', List.sum_replicate_nat,
    List.length_ofFn]

def ch (x y z : Word) : Word := (x &&& y) ^^^ (~~~x &&& z)

def maj (x y z : Word) : Word := (x &&& y) ^^^ (x &&& z) ^^^ (y &&& z)

theorem rotateRight_eq (x : Word) (hn : n < 32) : x >>> n ||| x <<< (32 - n) = x.rotateRight n := by
  rw [BitVec.rotateRight_def, Nat.mod_eq_of_lt hn]

theorem toNat_word (a b c d : UInt8) :
    (word [a, b, c, d]).toNat = a.toNat * 2 ^ 24 + b.toNat * 2 ^ 16 + c.toNat * 2 ^ 8 + d.toNat := by
  have hvalue : LittleEndian.value [a, b, c, d].reverse = a.toNat * 2 ^ 24 + b.toNat * 2 ^ 16 + c.toNat * 2 ^ 8 + d.toNat := by
    simp only [List.reverse_cons, List.reverse_nil, List.nil_append, List.cons_append, LittleEndian.value]
    omega
  have ha := a.toNat_lt
  have hb := b.toNat_lt
  have hc := c.toNat_lt
  have hd := d.toNat_lt
  rw [word, BitVec.toNat_ofNat, hvalue]
  omega

/-! ## SHA-256 -/

def bigSigma0 (x : Word) : Word := x.rotateRight 2 ^^^ x.rotateRight 13 ^^^ x.rotateRight 22

def bigSigma1 (x : Word) : Word := x.rotateRight 6 ^^^ x.rotateRight 11 ^^^ x.rotateRight 25

def sigma0 (x : Word) : Word := x.rotateRight 7 ^^^ x.rotateRight 18 ^^^ x >>> 3

def sigma1 (x : Word) : Word := x.rotateRight 17 ^^^ x.rotateRight 19 ^^^ x >>> 10

def primes : List ℕ := [
  2, 3, 5, 7, 11, 13, 17, 19, 23, 29, 31, 37, 41, 43, 47, 53, 59, 61, 67, 71, 73, 79, 83, 89, 97, 101, 103, 107, 109, 113, 127, 131,
  137, 139, 149, 151, 157, 163, 167, 173, 179, 181, 191, 193, 197, 199, 211, 223, 227, 229, 233, 239, 241, 251, 257, 263, 269, 271,
  277, 281, 283, 293, 307, 311]

/-- The first 32 bits of the fraction of the root of degree `e` of `p`. -/
def rootFraction (e p : ℕ) : Word := BitVec.ofNat 32 (Nat.nthRoot e (p * 2 ^ (32 * e)))

def sha256Iv (j : Fin 8) : Word := rootFraction 2 (primes.getD j 0)

/-- The message schedule, from the words of a block on. -/
def sha256Word (w : ℕ → Word) (t : ℕ) : Word :=
  if t < 16 then w t
  else sigma1 (sha256Word w (t - 2)) + sha256Word w (t - 7) + sigma0 (sha256Word w (t - 15)) + sha256Word w (t - 16)

def sha256Round (w : ℕ → Word) (T : Fin 8 → Word) (t : ℕ) : Fin 8 → Word :=
  let t₁ := T 7 + bigSigma1 (T 4) + ch (T 4) (T 5) (T 6) + rootFraction 3 (primes.getD t 0) + sha256Word w t
  let t₂ := bigSigma0 (T 0) + maj (T 0) (T 1) (T 2)
  ![t₁ + t₂, T 0, T 1, T 2, T 3 + t₁, T 4, T 5, T 6]

/-- A round before the words are passed on. -/
def sha256Mix (x : Word) (T : Fin 8 → Word) : Fin 8 → Word :=
  let t₁ := T 7 + bigSigma1 (T 4) + ch (T 4) (T 5) (T 6) + x
  Function.update (Function.update T 3 (T 3 + t₁)) 7 (t₁ + (bigSigma0 (T 0) + maj (T 0) (T 1) (T 2)))

def sha256Compress (H : Fin 8 → Word) (block : List UInt8) (j : Fin 8) : Word :=
  (List.range 64).foldl (sha256Round (blockWord block)) H j + H j

def sha256 (msg : List UInt8) : List UInt8 := digest sha256Compress sha256Iv msg

theorem length_sha256 (msg : List UInt8) : (sha256 msg).length = 32 := length_digest sha256Compress sha256Iv msg

/-! ## HMAC and PBKDF2 -/

variable (hash : List UInt8 → List UInt8)

def blockKey (key : List UInt8) : List UInt8 := zrealloc (if 64 < key.length then hash key else key) 64

def hmac (key msg : List UInt8) : List UInt8 :=
  hash ((blockKey hash key).map (· ^^^ 0x5c) ++ hash ((blockKey hash key).map (· ^^^ 0x36) ++ msg))

variable (prf : List UInt8 → List UInt8)

/-- The exclusive or of `c + 1` outputs, each of them the input of the next one. -/
def pbkdf2Sum : ℕ → List UInt8 → List UInt8
  | 0, u => u
  | c + 1, u => List.zipWith (· ^^^ ·) u (pbkdf2Sum c (prf u))

/-- Block `i`, from one on. -/
def pbkdf2Block (salt : List UInt8) (c i : ℕ) : List UInt8 := pbkdf2Sum prf (c - 1) (prf (salt ++ wordBytes (BitVec.ofNat 32 i)))

/-- `n` bytes of the blocks of 32 bytes behind the first `i`. -/
def pbkdf2From (salt : List UInt8) (c i n : ℕ) : List UInt8 :=
  ((List.range ((n + 31) / 32)).flatMap fun j => pbkdf2Block prf salt c (i + j + 1)).take n

def pbkdf2 (salt : List UInt8) (c n : ℕ) : List UInt8 := pbkdf2From prf salt c 0 n

variable {prf}

theorem length_pbkdf2Sum (h : ∀ m, (prf m).length = 32) (c : ℕ) {u : List UInt8} (hu : u.length = 32) :
    (pbkdf2Sum prf c u).length = 32 := by
  induction c generalizing u with
  | zero => exact hu
  | succ c ih => rw [pbkdf2Sum, List.length_zipWith, hu, ih (h u), Nat.min_self]

theorem length_pbkdf2Block (h : ∀ m, (prf m).length = 32) (salt : List UInt8) (c i : ℕ) : (pbkdf2Block prf salt c i).length = 32 :=
  length_pbkdf2Sum h _ (h _)

theorem pbkdf2From_zero (salt : List UInt8) (c i : ℕ) : pbkdf2From prf salt c i 0 = [] := List.take_zero

theorem pbkdf2From_succ (h : ∀ m, (prf m).length = 32) (salt : List UInt8) (c i : ℕ) {n : ℕ} (hn : 0 < n) :
    pbkdf2From prf salt c i n = (pbkdf2Block prf salt c (i + 1)).take n ++ pbkdf2From prf salt c (i + 1) (n - 32) := by
  have hblocks : (n + 31) / 32 = (n - 32 + 31) / 32 + 1 := by omega
  have hnext : (fun j => pbkdf2Block prf salt c (i + (j + 1) + 1)) = fun j => pbkdf2Block prf salt c (i + 1 + j + 1) :=
    funext fun j => by rw [Nat.add_comm j 1, ← Nat.add_assoc]
  rw [pbkdf2From, pbkdf2From, hblocks, List.range_succ_eq_map, List.flatMap_cons, List.flatMap_map, List.take_append,
    length_pbkdf2Block h, ← hnext]

end Yjc.SecureHash
