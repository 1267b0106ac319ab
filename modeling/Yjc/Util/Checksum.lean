import Yjc.Lib.Mem
import Yjc.Lib.OnesComplement

/-! `in_cksumv` and `checksum` of `util/checksum.c`, where words are little-endian. -/

namespace Yjc.Checksum
open Mem OnesComplement

def word16 (a b : UInt8) : ℕ := a.toNat + 2 ^ 8 * b.toNat

def word32 (a b c d : UInt8) : ℕ := word16 a b + 2 ^ 16 * word16 c d

/-- `add_carry`, with 32 bits. -/
def addCarry (dst add : ℕ) : ℕ :=
  let dst := (dst + add) % 2 ^ 32
  if dst < add then (dst + 1) % 2 ^ 32 else dst

/-- The loop of `in_cksumv` over eight bytes, with the bytes that are left. -/
def addEights (sum : ℕ) : List UInt8 → ℕ × List UInt8
  | a :: b :: c :: d :: e :: f :: g :: h :: ptr => addEights (addCarry (addCarry sum (word32 a b c d)) (word32 e f g h)) ptr
  | ptr => (sum, ptr)

def addTwos (sum : ℕ) : List UInt8 → ℕ × List UInt8
  | a :: b :: ptr => addTwos (addCarry sum (word16 a b)) ptr
  | ptr => (sum, ptr)

/-- A fragment, with `sum` and the odd byte that `wordbuf` holds if there is one. -/
def addFragment (s : ℕ × Option UInt8) (iov : List UInt8) : ℕ × Option UInt8 :=
  match iov with
  | [] => s
  | b :: rest =>
    let (sum, ptr) :=
      match s.2 with
      | some a => (addCarry s.1 (word16 a b), rest)
      | none => (s.1, b :: rest)
    let (sum, ptr) := addEights sum ptr
    let (sum, ptr) := addTwos sum ptr
    (sum, ptr.head?)

/-- The two last steps of both functions, and the complement as `uint16_t`. -/
def foldSum (sum : ℕ) : ℕ :=
  let sum := (sum >>> 16) + (sum &&& 0xffff)
  let sum := sum + (sum >>> 16)
  (2 ^ 32 - 1 - sum) % 2 ^ 16

def inCksumv (iov : List (List UInt8)) : ℕ :=
  let (sum, odd) := iov.foldl addFragment (0, none)
  let sum :=
    match odd with
    | some a => addCarry sum (word16 a 0)
    | none => sum
  foldSum sum

/-- The loop of `checksum`, with the odd byte after it. -/
def checksumLoop (sum : ℕ) : List UInt8 → ℕ
  | a :: b :: ptr => checksumLoop ((sum + word16 a b) % 2 ^ 32) ptr
  | [a] => (sum + a.toNat) % 2 ^ 32
  | [] => sum

def checksum (buf : List UInt8) : ℕ := foldSum (checksumLoop 0 buf)

/-! ## The sum of a byte string -/

/-- The 16-bit words, the last one with a zero where a byte is missing. -/
def words : List UInt8 → List ℕ
  | a :: b :: x => word16 a b :: words x
  | [a] => [word16 a 0]
  | [] => []

def onesSum (x : List UInt8) : ℕ := (words x).foldl (endAround 0xffff) 0

def wordSum (x : List UInt8) : ℕ := (words x).sum

variable {x y : List UInt8} {sum n k : ℕ}

theorem word16_le (a b : UInt8) : word16 a b ≤ 0xffff := by
  have ha := a.toNat_lt
  have hb := b.toNat_lt
  unfold word16
  omega

theorem words_le (x : List UInt8) : ∀ w ∈ words x, w ≤ 0xffff := by
  fun_induction words x with
  | case1 a b x ih => exact List.forall_mem_cons.mpr ⟨word16_le a b, ih⟩
  | case2 a => simpa using word16_le a 0
  | case3 => simp

theorem onesSum_eq (x : List UInt8) : onesSum x = rep 0xffff (wordSum x) := by
  rw [onesSum, foldl_endAround _ (words_le x) (Nat.zero_le _), Nat.zero_add, wordSum]

theorem wordSum_le (x : List UInt8) : wordSum x ≤ 0xffff * ((x.length + 1) / 2) := by
  unfold wordSum
  fun_induction words x with
  | case1 a b x ih =>
    have hle := word16_le a b
    rw [List.sum_cons, List.length_cons, List.length_cons]
    omega
  | case2 a =>
    have hle := word16_le a 0
    rw [List.sum_singleton, List.length_singleton]
    omega
  | case3 => exact Nat.zero_le _

theorem wordSum_append (hx : x.length % 2 = 0) : wordSum (x ++ y) = wordSum x + wordSum y := by
  unfold wordSum
  fun_induction words x with
  | case1 a b x ih =>
    rw [List.cons_append, List.cons_append, words, List.sum_cons, List.sum_cons, ih (by rw [List.length_cons, List.length_cons] at hx; omega),
      Nat.add_assoc]
  | case2 a => simp at hx
  | case3 => simp

/-! ## Network order -/

/-- The 16-bit words as the network has them. -/
def networkWords : List UInt8 → List ℕ
  | a :: b :: x => (a.toNat * 2 ^ 8 + b.toNat) :: networkWords x
  | [a] => [a.toNat * 2 ^ 8]
  | [] => []

def networkSum (x : List UInt8) : ℕ := (networkWords x).foldl (endAround 0xffff) 0

theorem networkWords_le (x : List UInt8) : ∀ w ∈ networkWords x, w ≤ 0xffff := by
  fun_induction networkWords x with
  | case1 a b x ih =>
    have ha := a.toNat_lt
    have hb := b.toNat_lt
    exact List.forall_mem_cons.mpr ⟨by omega, ih⟩
  | case2 a =>
    have ha := a.toNat_lt
    simpa using by omega
  | case3 => simp

theorem networkWords_sum (x : List UInt8) : ∃ k ≤ (networkWords x).sum, 2 ^ 8 * wordSum x = (networkWords x).sum + 0xffff * k := by
  -- to swap the bytes of the words is to multiply by the base of a byte
  unfold wordSum
  fun_induction words x with
  | case1 a b x ih =>
    obtain ⟨k, hle, hk⟩ := ih
    refine ⟨k + b.toNat, ?_⟩
    rw [networkWords, List.sum_cons, List.sum_cons, Nat.mul_add, hk, word16]
    omega
  | case2 a =>
    refine ⟨0, Nat.zero_le _, ?_⟩
    rw [networkWords, List.sum_singleton, List.sum_singleton, word16, UInt8.toNat_zero]
    omega
  | case3 => exact ⟨0, Nat.zero_le _, rfl⟩

theorem networkSum_eq (x : List UInt8) : networkSum x = rep 0xffff (networkWords x).sum := by
  rw [networkSum, foldl_endAround _ (networkWords_le x) (Nat.zero_le _), Nat.zero_add]

theorem onesSum_ones_iff (x : List UInt8) : onesSum x = 0xffff ↔ networkSum x = 0xffff := by
  obtain ⟨k, hle, hk⟩ := networkWords_sum x
  have hzero : wordSum x ≠ 0 ↔ (networkWords x).sum ≠ 0 := by omega
  have hdvd : 0xffff ∣ wordSum x ↔ 0xffff ∣ (networkWords x).sum := by
    have hbase : 0xffff ∣ 2 ^ 8 * wordSum x ↔ 0xffff ∣ wordSum x := Nat.Coprime.dvd_mul_left (by decide)
    rw [← hbase, hk]
    exact Nat.dvd_add_left (Dvd.intro k rfl)
  rw [onesSum_eq, networkSum_eq, rep_eq_modulus (by decide), rep_eq_modulus (by decide), hzero, hdvd]

/-! ## The loops -/

theorem addCarry_eq {dst add : ℕ} (hdst : dst < 2 ^ 32) (hadd : add < 2 ^ 32) :
    addCarry dst add = rep (2 ^ 32 - 1) (dst + add) := by
  rw [← endAround_eq (by omega) (by omega)]
  unfold addCarry endAround
  dsimp only
  split_ifs <;> omega

theorem addCarry_spec {dst add : ℕ} (hdst : dst < 2 ^ 32) (hadd : add < 2 ^ 32) :
    addCarry dst add < 2 ^ 32 ∧ rep 0xffff (addCarry dst add) = rep 0xffff (dst + add) := by
  rw [addCarry_eq hdst hadd]
  have hle : rep (2 ^ 32 - 1) (dst + add) ≤ 2 ^ 32 - 1 := rep_le (by decide)
  exact ⟨by omega, rep_rep_of_dvd (by decide) _⟩

theorem word32_lt (a b c d : UInt8) : word32 a b c d < 2 ^ 32 := by
  have hab := word16_le a b
  have hcd := word16_le c d
  unfold word32
  omega

theorem rep_word32 (a b c d : UInt8) (n : ℕ) :
    rep 0xffff (n + word32 a b c d) = rep 0xffff (n + (word16 a b + word16 c d)) := by
  rw [word32, ← Nat.add_assoc]
  exact (rep_add_mul 0xffff _ _).trans (by rw [Nat.add_assoc])

def Added (sum : ℕ) (x : List UInt8) (r : ℕ × List UInt8) : Prop :=
  r.1 < 2 ^ 32 ∧ ∃ pre, x = pre ++ r.2 ∧ pre.length % 2 = 0 ∧ rep 0xffff r.1 = rep 0xffff (sum + wordSum pre)

theorem Added.nil (h : sum < 2 ^ 32) : Added sum x (sum, x) := ⟨h, [], rfl, rfl, rfl⟩

theorem Added.trans {r s : ℕ × List UInt8} (h : Added sum x r) (h' : Added r.1 r.2 s) : Added sum x s := by
  obtain ⟨-, pre, hx, heven, hsum⟩ := h
  obtain ⟨hlt, pre', hx', heven', hsum'⟩ := h'
  refine ⟨hlt, pre ++ pre', by rw [hx, hx', List.append_assoc], by rw [List.length_append]; omega, ?_⟩
  rw [hsum', wordSum_append heven, ← rep_add_rep, hsum, rep_add_rep, Nat.add_assoc]

theorem added_word16 (h : sum < 2 ^ 32) (a b : UInt8) : Added sum (a :: b :: x) (addCarry sum (word16 a b), x) := by
  have hle := word16_le a b
  obtain ⟨hlt, hrep⟩ := @addCarry_spec sum (word16 a b) h (by omega)
  exact ⟨hlt, [a, b], rfl, by simp, by rw [hrep]; rfl⟩

theorem added_word32 (h : sum < 2 ^ 32) (a b c d : UInt8) :
    Added sum (a :: b :: c :: d :: x) (addCarry sum (word32 a b c d), x) := by
  obtain ⟨hlt, hrep⟩ := addCarry_spec h (word32_lt a b c d)
  exact ⟨hlt, [a, b, c, d], rfl, by simp, by rw [hrep, rep_word32]; rfl⟩

theorem added_eights (h : sum < 2 ^ 32) : Added sum x (addEights sum x) := by
  fun_induction addEights sum x with
  | case1 sum a b c d e f g i ptr ih =>
    have hfirst := added_word32 (x := e :: f :: g :: i :: ptr) h a b c d
    have hboth := hfirst.trans (added_word32 hfirst.1 e f g i)
    exact hboth.trans (ih hboth.1)
  | case2 sum ptr => exact .nil h

theorem added_twos {sum : ℕ} {x : List UInt8} (h : sum < 2 ^ 32) : Added sum x (addTwos sum x) ∧ (addTwos sum x).2.length < 2 :=
  match x with
  | [] => ⟨.nil h, Nat.zero_lt_two⟩
  | [_] => ⟨.nil h, Nat.one_lt_two⟩
  | a :: b :: ptr => by
    have hfirst := added_word16 (x := ptr) h a b
    obtain ⟨hrest, hlen⟩ := added_twos (x := ptr) hfirst.1
    exact ⟨hfirst.trans hrest, hlen⟩

/-! ## Fragments -/

/-- The state of `in_cksumv` after the bytes `x`. -/
def Summed (x : List UInt8) (s : ℕ × Option UInt8) : Prop :=
  s.1 < 2 ^ 32 ∧ ∃ pre, x = pre ++ s.2.toList ∧ pre.length % 2 = 0 ∧ rep 0xffff s.1 = rep 0xffff (wordSum pre)

theorem Summed.fragment {s : ℕ × Option UInt8} (h : Summed x s) (iov : List UInt8) : Summed (x ++ iov) (addFragment s iov) := by
  obtain ⟨sum, odd⟩ := s
  obtain ⟨hlt, pre, hx, heven, hsum⟩ := h
  cases iov with
  | nil =>
    rw [List.append_nil]
    exact ⟨hlt, pre, hx, heven, hsum⟩
  | cons b rest =>
    -- the odd byte goes with the first byte of this fragment
    have hfirst : ∃ r : ℕ × List UInt8, Added sum (odd.toList ++ b :: rest) r ∧
        addFragment (sum, odd) (b :: rest) =
          ((addTwos (addEights r.1 r.2).1 (addEights r.1 r.2).2).1, (addTwos (addEights r.1 r.2).1 (addEights r.1 r.2).2).2.head?) := by
      cases odd with
      | none => exact ⟨(sum, b :: rest), .nil hlt, rfl⟩
      | some a => exact ⟨(addCarry sum (word16 a b), rest), added_word16 hlt a b, rfl⟩
    obtain ⟨r, hr, heq⟩ := hfirst
    have heights := hr.trans (added_eights hr.1)
    obtain ⟨htwos, hshort⟩ := added_twos (x := (addEights r.1 r.2).2) heights.1
    obtain ⟨hlt', pre', hx', heven', hsum'⟩ := heights.trans htwos
    rw [heq]
    refine ⟨hlt', pre ++ pre', ?_, by rw [List.length_append]; omega, ?_⟩
    · have hhead : ∀ l : List UInt8, l.length < 2 → l.head?.toList = l := by
        intro l hl
        match l with
        | [] => rfl
        | [_] => rfl
      rw [hhead _ hshort, hx, List.append_assoc, hx', List.append_assoc]
    · rw [hsum', wordSum_append heven, ← rep_add_rep, hsum, rep_add_rep]

theorem summed_foldl (iov : List (List UInt8)) {s : ℕ × Option UInt8} (h : Summed x s) :
    Summed (x ++ iov.flatten) (iov.foldl addFragment s) := by
  induction iov generalizing x s with
  | nil => rwa [List.flatten_nil, List.append_nil]
  | cons f iov ih =>
    rw [List.flatten_cons, ← List.append_assoc]
    exact ih (h.fragment f)

theorem foldSum_eq (h : sum < 2 ^ 32) : foldSum sum = 0xffff - rep 0xffff sum := by
  have hrep : rep 0xffff sum = rep 0xffff (sum % 2 ^ 16 + sum / 2 ^ 16) := by
    conv_lhs => rw [← Nat.mod_add_div sum (2 ^ 16)]
    exact rep_add_mul 0xffff _ _
  have hlow : sum &&& 0xffff = sum % 2 ^ 16 := Nat.and_two_pow_sub_one_eq_mod sum 16
  unfold foldSum
  simp only [Nat.shiftRight_eq_div_pow, hlow]
  rw [hrep]
  obtain ⟨t, ht⟩ : ∃ t, t = sum % 2 ^ 16 + sum / 2 ^ 16 := ⟨_, rfl⟩
  have hbound : t ≤ 2 * 0xffff := by omega
  rw [Nat.add_comm (sum / 2 ^ 16), ← ht]
  rcases Nat.le_or_ge t 0xffff with hle | hge
  · rw [rep_of_le hle]
    omega
  · obtain ⟨d, rfl⟩ : ∃ d, t = 0xffff + d := ⟨t - 0xffff, by omega⟩
    rw [← endAround_eq (Nat.le_refl _) (by omega), endAround]
    split_ifs <;> omega

theorem inCksumv_eq (iov : List (List UInt8)) : inCksumv iov = 0xffff - onesSum iov.flatten := by
  have hzero : Summed [] (0, none) := ⟨by decide, [], rfl, rfl, rfl⟩
  obtain ⟨hlt, pre, hx, heven, hsum⟩ := summed_foldl iov hzero
  unfold inCksumv
  rw [List.nil_append] at hx
  rw [onesSum_eq, hx]
  rcases hs : iov.foldl addFragment (0, none) with ⟨sum, odd⟩
  rw [hs] at hlt hsum
  cases odd with
  | none => 
    dsimp only at *
    rw [foldSum_eq hlt, hsum, Option.toList_none, List.append_nil]
  | some a =>
    dsimp only at *
    have hle := word16_le a 0
    obtain ⟨hlt', hsum'⟩ := @addCarry_spec _ (word16 a 0) hlt (by omega)
    rw [foldSum_eq hlt', hsum', ← rep_add_rep, hsum, rep_add_rep, Option.toList_some, wordSum_append heven]
    rfl

/-! ## One buffer -/

theorem checksumLoop_eq (h : sum + 0xffff * ((x.length + 1) / 2) < 2 ^ 32) : checksumLoop sum x = sum + wordSum x := by
  unfold wordSum
  fun_induction checksumLoop sum x with
  | case1 sum a b ptr ih =>
    have hle := word16_le a b
    rw [List.length_cons, List.length_cons] at h
    have hmod : (sum + word16 a b) % 2 ^ 32 = sum + word16 a b := Nat.mod_eq_of_lt (by omega)
    rw [hmod] at ih ⊢
    rw [words, List.sum_cons, ih (by omega), Nat.add_assoc]
  | case2 sum a =>
    have ha := a.toNat_lt
    rw [List.length_singleton] at h
    rw [Nat.mod_eq_of_lt (by omega), words, List.sum_singleton]
    rfl
  | case3 sum => rfl

theorem checksum_eq (h : x.length ≤ 131072) : checksum x = 0xffff - onesSum x := by
  have hloop : checksumLoop 0 x = wordSum x := (checksumLoop_eq (by omega)).trans (Nat.zero_add _)
  have hle := wordSum_le x
  have hlt : wordSum x < 2 ^ 32 := by omega
  rw [checksum, hloop, foldSum_eq hlt, onesSum_eq]

/-! ## Verification -/

def bytes16 (c : ℕ) : List UInt8 := [UInt8.ofNat (c % 2 ^ 8), UInt8.ofNat (c / 2 ^ 8)]

theorem wordSum_bytes16 {c : ℕ} (h : c ≤ 0xffff) : wordSum (bytes16 c) = c := by
  have hlow : (UInt8.ofNat (c % 2 ^ 8)).toNat = c % 2 ^ 8 := UInt8.toNat_ofNat_of_lt' (Nat.mod_lt _ (by decide))
  have hhigh : (UInt8.ofNat (c / 2 ^ 8)).toNat = c / 2 ^ 8 := UInt8.toNat_ofNat_of_lt' (by
    change c / 2 ^ 8 < 2 ^ 8
    omega)
  rw [bytes16, wordSum, words, words, List.sum_singleton, word16, hlow, hhigh]
  exact Nat.mod_add_div c (2 ^ 8)

theorem wordSum_store (hk : 2 * k + 2 ≤ x.length) {w : List UInt8} (hw : w.length = 2) :
    wordSum (store x (2 * k) w) = wordSum (x.take (2 * k)) + (wordSum w + wordSum (x.drop (2 * k + 2))) := by
  rw [store, hw, List.append_assoc, wordSum_append (by rw [List.length_take]; omega), wordSum_append (by omega)]

/-- The checksum of the concatenation, however it is split; it is that of `checksum`, and a string that holds its own
checksum sums to zero. -/
theorem in_cksumv_exact (iov : List (List UInt8)) :
    inCksumv iov = 0xffff - onesSum iov.flatten ∧
      (iov.flatten.length ≤ 131072 → inCksumv iov = checksum iov.flatten) ∧
      ∀ (x : List UInt8) (k : ℕ) (iov' : List (List UInt8)), 2 * k + 2 ≤ x.length → iov.flatten = store x (2 * k) [0, 0] →
        iov'.flatten = store x (2 * k) (bytes16 (inCksumv iov)) → inCksumv iov' = 0 := by
  refine ⟨inCksumv_eq iov, fun h => by rw [inCksumv_eq, checksum_eq h], fun x k iov' hk hzero hstored => ?_⟩
  have hle : inCksumv iov ≤ 0xffff := by
    rw [inCksumv_eq]
    exact Nat.sub_le _ _
  have hrest : wordSum (store x (2 * k) [0, 0]) = wordSum (x.take (2 * k)) + wordSum (x.drop (2 * k + 2)) := by
    rw [wordSum_store hk rfl]
    exact congrArg _ (Nat.zero_add _)
  have hsum : wordSum iov'.flatten = wordSum iov.flatten + inCksumv iov := by
    rw [hstored, wordSum_store hk rfl, wordSum_bytes16 hle, hzero, hrest]
    omega
  rw [inCksumv_eq iov', onesSum_eq, hsum, inCksumv_eq iov, onesSum_eq, rep_add_complement (by decide)]

theorem in_cksumv_exact_sample :
    inCksumv [[0x45], [], [0x12, 0]] = checksum [0x45, 0x12, 0] ∧ inCksumv [[1, 2, 251], [253], [3]] = 0 :=
  ⟨(in_cksumv_exact [[0x45], [], [0x12, 0]]).2.1 (by decide),
    (in_cksumv_exact [[1, 2], [0, 0, 3]]).2.2 [1, 2, 9, 9, 3] 1 _ (by decide) (by decide) (by decide)⟩

/-! ## Long buffers -/

theorem checksumLoop_mod (h : sum < 2 ^ 32) : checksumLoop sum x = (sum + wordSum x) % 2 ^ 32 := by
  unfold wordSum
  fun_induction checksumLoop sum x with
  | case1 sum a b ptr ih =>
    rw [ih (Nat.mod_lt _ (by decide)), words, List.sum_cons, Nat.mod_add_mod, Nat.add_assoc]
  | case2 sum a => rw [words, List.sum_singleton, word16, UInt8.toNat_zero, Nat.mul_zero, Nat.add_zero]
  | case3 sum => rw [words, List.sum_nil, Nat.add_zero, Nat.mod_eq_of_lt h]

theorem checksum_mod (x : List UInt8) : checksum x = 0xffff - rep 0xffff (wordSum x % 2 ^ 32) := by
  have hloop : checksumLoop 0 x = wordSum x % 2 ^ 32 := by rw [checksumLoop_mod (by decide), Nat.zero_add]
  rw [checksum, hloop, foldSum_eq (Nat.mod_lt _ (by decide))]

theorem wordSum_lt_of_checksum_eq (hlen : x.length < 2 ^ 31) (h : checksum x = inCksumv [x]) : wordSum x < 2 ^ 32 := by
  have hle := wordSum_le x
  have hrep : ∀ n, rep 0xffff n ≤ 0xffff := fun n => rep_le (by decide)
  rw [checksum_mod, inCksumv_eq, onesSum_eq, List.flatten_singleton] at h
  have hsame : rep 0xffff (wordSum x % 2 ^ 32) = rep 0xffff (wordSum x) := by
    have h1 := hrep (wordSum x % 2 ^ 32)
    have h2 := hrep (wordSum x)
    omega
  have hmod := (rep_modEq 0xffff (wordSum x % 2 ^ 32)).symm
  rw [hsame] at hmod
  have hrest : wordSum x % 2 ^ 32 % 0xffff = wordSum x % 0xffff := hmod.trans (rep_modEq 0xffff _)
  -- the sum is below `2 ^ 46`: the carries that are lost are fewer than `0xffff`
  omega

/-- The functions agree on a buffer of an `int` length if and only if its words, added up, stay below `2 ^ 32`. -/
theorem checksum_keeps_carries (x : List UInt8) (hlen : x.length < 2 ^ 31) :
    checksum x = inCksumv [x] ↔ wordSum x < 2 ^ 32 := by
  constructor
  · exact wordSum_lt_of_checksum_eq hlen
  · intro h
    rw [checksum_mod, inCksumv_eq, onesSum_eq, List.flatten_singleton, Nat.mod_eq_of_lt h]

theorem checksum_keeps_carries_sample : checksum [1, 2, 3] = inCksumv [[1, 2, 3]] ↔ wordSum [1, 2, 3] < 2 ^ 32 :=
  checksum_keeps_carries [1, 2, 3] (by decide)

theorem wordSum_replicate (n : ℕ) : wordSum (List.replicate (2 * n) 0xff) = 0xffff * n := by
  induction n with
  | zero => rfl
  | succ n ih =>
    have hcons : List.replicate (2 * (n + 1)) (0xff : UInt8) = 0xff :: 0xff :: List.replicate (2 * n) 0xff := rfl
    rw [hcons, wordSum, words, List.sum_cons, ← wordSum, ih, Nat.mul_succ, Nat.add_comm]
    rfl

/-- One carry is lost. -/
theorem checksum_drops_carry :
    131072 < (List.replicate (2 * 65538) (0xff : UInt8)).length ∧
      checksum (List.replicate (2 * 65538) 0xff) ≠ inCksumv [List.replicate (2 * 65538) 0xff] := by
  have hlen : (List.replicate (2 * 65538) (0xff : UInt8)).length = 2 * 65538 := List.length_replicate
  refine ⟨by rw [hlen]; decide, fun heq => ?_⟩
  have hlt := wordSum_lt_of_checksum_eq (by rw [hlen]; decide) heq
  rw [wordSum_replicate] at hlt
  exact absurd hlt (by decide)

end Yjc.Checksum
