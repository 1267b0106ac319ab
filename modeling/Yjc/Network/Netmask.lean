import Mathlib.Data.Fin.VecNotation
import Mathlib.Tactic.IntervalCases
import Yjc.Network.PrefixCopy
import Yjc.Network.PrefixText

/-! Netmasks and their lengths, in `network/prefix.c` and `network/ipaddr.c`. -/

namespace Yjc.Network
open Mem BitPrefix

abbrev ntohl : UInt32 → UInt32 := htonl

/-- `__builtin_clz`, which is undefined for 0. -/
def builtinClz (x : UInt32) : Option ℕ := if x = 0 then none else some x.toBitVec.clz.toNat

def ipMasklen (netmask : UInt32) : Option ℕ :=
  let tmp := ~~~ntohl netmask
  if tmp ≠ 0 then builtinClz tmp else some 32

/-- `struct in6_addr`, by its member `s6_addr32`. -/
abbrev In6Addr := Fin 4 → UInt32

def ip6Masklen (netmask : In6Addr) : Option ℕ :=
  if netmask 0 ≠ 0xffffffff then builtinClz (~~~ntohl (netmask 0))
  else if netmask 1 ≠ 0xffffffff then (builtinClz (~~~ntohl (netmask 1))).map (· + 32)
  else if netmask 2 ≠ 0xffffffff then (builtinClz (~~~ntohl (netmask 2))).map (· + 64)
  else if netmask 3 ≠ 0xffffffff then (builtinClz (~~~ntohl (netmask 3))).map (· + 96)
  else some 128

/-- `none` where the assertion fails. -/
def masklen2ip6 (masklen : ℕ) : Option In6Addr :=
  if 128 < masklen then none
  else if masklen = 0 then some ![0, 0, 0, 0]
  else if masklen ≤ 32 then some ![htonl ((0xffffffff : UInt32) <<< UInt32.ofNat (32 - masklen)), 0, 0, 0]
  else if masklen ≤ 64 then some ![0xffffffff, htonl ((0xffffffff : UInt32) <<< UInt32.ofNat (64 - masklen)), 0, 0]
  else if masklen ≤ 96 then some ![0xffffffff, 0xffffffff, htonl ((0xffffffff : UInt32) <<< UInt32.ofNat (96 - masklen)), 0]
  else some ![0xffffffff, 0xffffffff, 0xffffffff, htonl ((0xffffffff : UInt32) <<< UInt32.ofNat (128 - masklen))]

/-- The loop of `netmask_to_prefix`, with `left` bits to go. -/
def countOnes (maskAddr : UInt32) : (left prefixLen : ℕ) → ℕ
  | 0, prefixLen => prefixLen
  | pos + 1, prefixLen => if maskAddr.toNat &&& 1 <<< pos = 0 then prefixLen else countOnes maskAddr pos (prefixLen + 1)

/-- The address that `ipv4_parse` or `ipv6_parse` makes of a text: zero, if it has none. -/
def parseAddr (inet : Inet) (family : UInt8) (ipString : List UInt8) : List UInt8 :=
  (inet.pton family ipString).getD (List.replicate (prefixBlen family) 0)

/-- The member `s_addr`, or `s6_addr32[k]`, of an address. -/
def addrWord (addr : List UInt8) (k : ℕ) : UInt32 := UInt32.ofNat (LittleEndian.value (slice addr (4 * k) (4 * k + 4)))

def netmaskToPrefix (inet : Inet) (netmask : List UInt8) : ℕ := countOnes (ntohl (addrWord (parseAddr inet afInet netmask) 0)) 32 0

/-! ## The bits of a word -/

/-- Bit `i` of a word in network byte order. -/
def netBit (w : UInt32) (i : ℕ) : Bool := w.toNat.testBit (8 * (i / 8) + (7 - i % 8))

/-- The mask has its bits set from the first one on. -/
def Contiguous (m : UInt32) : Prop := ∃ n ≤ 32, ∀ i < 32, netBit m i = decide (i < n)

/-- `n` of 32 bits are set before the first that is not. -/
structure Leads (b : ℕ → Bool) (n : ℕ) : Prop where
  le : n ≤ 32
  set : ∀ i < n, b i = true
  clear : n < 32 → b n = false

variable {m v w : UInt32} {b : ℕ → Bool} {i j k n : ℕ} {p q : Prefix}

theorem Leads.unique (h : Leads b n) (h' : Leads b k) : n = k := by
  rcases Nat.lt_trichotomy n k with hlt | heq | hlt
  · have := h.clear (Nat.lt_of_lt_of_le hlt h'.le)
    rw [h'.set n hlt] at this
    cases this
  · exact heq
  · have := h'.clear (Nat.lt_of_lt_of_le hlt h.le)
    rw [h.set k hlt] at this
    cases this

theorem Leads.congr {c : ℕ → Bool} (h : Leads b n) (heq : ∀ i < 32, c i = b i) : Leads c n :=
  ⟨h.le, fun i hi => (heq i (Nat.lt_of_lt_of_le hi h.le)).trans (h.set i hi), fun hn => (heq n hn).trans (h.clear hn)⟩

theorem testBit_ge (m : UInt32) (h : 32 ≤ j) : m.toNat.testBit j = false :=
  Nat.testBit_lt_two_pow (Nat.lt_of_lt_of_le m.toNat_lt (Nat.pow_le_pow_right (by decide) h))

theorem testBit_ff00 (j : ℕ) : (0xff00 : UInt32).toNat.testBit j = decide (8 ≤ j ∧ j < 16) := by
  have hshift : (0xff00 : UInt32).toNat = (2 ^ 8 - 1) <<< 8 := by decide
  rw [hshift, Nat.testBit_shiftLeft, Nat.testBit_two_pow_sub_one, ← Bool.decide_and]
  exact decide_eq_decide.mpr (by omega)

theorem testBit_ntohl (m : UInt32) (h : i < 32) : (ntohl m).toNat.testBit (31 - i) = netBit m i := by
  rw [ntohl, htonl, netBit]
  simp only [UInt32.toNat_or, UInt32.toNat_and, UInt32.toNat_shiftLeft, UInt32.toNat_shiftRight, Nat.testBit_or, Nat.testBit_mod_two_pow,
    Nat.testBit_shiftLeft, Nat.testBit_shiftRight, Nat.testBit_and, testBit_ff00]
  interval_cases i <;> simp [testBit_ge]

theorem netBit_htonl (x : UInt32) (h : i < 32) : netBit (htonl x) i = x.toNat.testBit (31 - i) := by
  have hswap := @testBit_ntohl (31 - (8 * (i / 8) + (7 - i % 8))) x (by omega)
  rwa [ntohl, show 31 - (31 - (8 * (i / 8) + (7 - i % 8))) = 8 * (i / 8) + (7 - i % 8) by omega, netBit,
    show 8 * ((31 - (8 * (i / 8) + (7 - i % 8))) / 8) + (7 - (31 - (8 * (i / 8) + (7 - i % 8))) % 8) = 31 - i by omega] at hswap

theorem netBit_or (v w : UInt32) (i : ℕ) : netBit (v ||| w) i = (netBit v i || netBit w i) := by
  rw [netBit, UInt32.toNat_or, Nat.testBit_or, netBit, netBit]

theorem word_ext (h : ∀ i < 32, netBit v i = netBit w i) : v = w := by
  apply UInt32.toNat_inj.mp
  apply Nat.eq_of_testBit_eq
  intro j
  by_cases hj : j < 32
  · have hbit := h (8 * (j / 8) + (7 - j % 8)) (by omega)
    rwa [netBit, netBit, show 8 * ((8 * (j / 8) + (7 - j % 8)) / 8) + (7 - (8 * (j / 8) + (7 - j % 8)) % 8) = j by omega] at hbit
  · rw [testBit_ge v (by omega), testBit_ge w (by omega)]

theorem netBit_and (v w : UInt32) (i : ℕ) : netBit (v &&& w) i = (netBit v i && netBit w i) := by
  rw [netBit, UInt32.toNat_and, Nat.testBit_and, netBit, netBit]

theorem countOnes_leads (x : UInt32) {left : ℕ} (hleft : left + n = 32) (hset : ∀ i < n, x.toNat.testBit (31 - i) = true) :
    Leads (fun i => x.toNat.testBit (31 - i)) (countOnes x left n) := by
  induction left generalizing n with
  | zero =>
    obtain rfl : n = 32 := by omega
    exact ⟨le_rfl, hset, fun h => absurd h (Nat.lt_irrefl _)⟩
  | succ pos ih =>
    have hpos : 31 - n = pos := by omega
    rw [countOnes, Nat.one_shiftLeft, Nat.and_two_pow]
    cases hbit : x.toNat.testBit pos with
    | true =>
      rw [if_neg (by rw [Bool.toNat_true, Nat.one_mul]; exact (Nat.two_pow_pos pos).ne')]
      refine ih (by omega) fun i hi => ?_
      rcases Nat.lt_succ_iff_lt_or_eq.mp hi with hi | rfl
      · exact hset i hi
      · rw [hpos]
        exact hbit
    | false =>
      rw [if_pos (by rw [Bool.toNat_false, Nat.zero_mul])]
      exact ⟨by omega, hset, fun _ => by rw [hpos]; exact hbit⟩

theorem ipMasklen_leads (m : UInt32) : ∃ n, ipMasklen m = some n ∧ Leads (netBit m) n := by
  -- the zeros that lead the complement are the ones that lead the mask
  have hnot : ∀ i < 32, netBit m i = !(~~~ntohl m).toNat.testBit (31 - i) := by
    intro i hi
    have hsize : UInt32.size - 1 - (ntohl m).toNat = 2 ^ 32 - ((ntohl m).toNat + 1) := by
      rw [show UInt32.size = 2 ^ 32 from rfl]
      omega
    rw [← testBit_ntohl m hi, UInt32.toNat_not, hsize, Nat.testBit_two_pow_sub_succ (ntohl m).toNat_lt, decide_eq_true (by omega),
      Bool.true_and, Bool.not_not]
  rw [ipMasklen]
  by_cases hzero : ~~~ntohl m = 0
  · rw [if_neg (not_not_intro hzero)]
    refine ⟨32, rfl, le_rfl, fun i hi => ?_, fun h => absurd h (Nat.lt_irrefl _)⟩
    rw [hnot i hi, hzero, UInt32.toNat_zero, Nat.zero_testBit, Bool.not_false]
  · have hne : (~~~ntohl m).toBitVec ≠ 0#32 := fun h => hzero (UInt32.toBitVec_inj.mp h)
    have hlt : (~~~ntohl m).toBitVec.clz.toNat < 32 := BitVec.clz_lt_iff_ne_zero.mpr hne
    rw [if_pos hzero, builtinClz, if_neg hzero]
    refine ⟨_, rfl, Nat.le_of_lt hlt, fun i hi => ?_, fun _ => ?_⟩
    · have hbound : (~~~ntohl m).toNat < 2 ^ (32 - (~~~ntohl m).toBitVec.clz.toNat) := BitVec.toNat_lt_two_pow_sub_clz
      have hpow : 2 ^ (32 - (~~~ntohl m).toBitVec.clz.toNat) ≤ 2 ^ (31 - i) := Nat.pow_le_pow_right (by decide) (by omega)
      rw [hnot i (by omega), Nat.testBit_lt_two_pow (Nat.lt_of_lt_of_le hbound hpow), Bool.not_false]
    · have hone : (~~~ntohl m).toNat.testBit (31 - (~~~ntohl m).toBitVec.clz.toNat) = true :=
        BitVec.getLsbD_true_clz_of_ne_zero (by decide) hne
      rw [hnot _ hlt, hone, Bool.not_true]

/-! ## The masks of the lengths -/

theorem masklen2ip_bits (h : n ≤ 32) : ∃ m, masklen2ip n = some m ∧ ∀ i < 32, netBit m i = decide (i < n) := by
  obtain ⟨m, hm, hbits⟩ := masklen2ip_spec h
  refine ⟨m, hm, fun i hi => ?_⟩
  rw [netBit, hbits _ (by omega) _ (by omega), Nat.div_add_mod]

theorem netBit_shifted (h : 0 < n) (h' : n ≤ 32) (hi : i < 32) :
    netBit (htonl ((0xffffffff : UInt32) <<< UInt32.ofNat (32 - n))) i = decide (i < n) := by
  -- the shifts of 32 bits give the same masks as those of 64
  have hall : ∀ n : Fin 33, 0 < n.val → masklen2ip n = some (htonl ((0xffffffff : UInt32) <<< UInt32.ofNat (32 - n))) := by
    decide +kernel
  obtain ⟨m, hm, hbits⟩ := masklen2ip_bits h'
  rw [hall ⟨n, Nat.lt_succ_of_le h'⟩ h] at hm
  rw [Option.some.inj hm]
  exact hbits i hi

theorem netBit_ones (hi : i < 32) : netBit 0xffffffff i = true := by
  rw [show (0xffffffff : UInt32) = htonl ((0xffffffff : UInt32) <<< UInt32.ofNat (32 - 32)) by decide,
    netBit_shifted (by decide) le_rfl hi, decide_eq_true hi]

theorem netBit_zero (i : ℕ) : netBit 0 i = false := by rw [netBit, UInt32.toNat_zero, Nat.zero_testBit]

theorem forall_words {P : Fin 4 → Prop} (h0 : P 0) (h1 : P 1) (h2 : P 2) (h3 : P 3) (k : Fin 4) : P k := by
  obtain ⟨k, hk⟩ := k
  interval_cases k
  · exact h0
  · exact h1
  · exact h2
  · exact h3

theorem masklen2ip6_bits (h : n ≤ 128) :
    ∃ m, masklen2ip6 n = some m ∧ ∀ k : Fin 4, ∀ i < 32, netBit (m k) i = decide (32 * k.val + i < n) := by
  -- a word that the length covers, one where it ends, and one past it
  have hones (k : ℕ) (hk : 32 * (k + 1) ≤ n) : ∀ i < 32, netBit 0xffffffff i = decide (32 * k + i < n) := by
    intro i hi
    rw [netBit_ones hi, decide_eq_true (by omega)]
  have hends (k : ℕ) (hk : 32 * k < n) (hk' : n ≤ 32 * (k + 1)) :
      ∀ i < 32, netBit (htonl ((0xffffffff : UInt32) <<< UInt32.ofNat (32 * (k + 1) - n))) i = decide (32 * k + i < n) := by
    intro i hi
    rw [show 32 * (k + 1) - n = 32 - (n - 32 * k) by omega, netBit_shifted (by omega) (by omega) hi]
    exact decide_eq_decide.mpr (by omega)
  have hzero (k : ℕ) (hk : n ≤ 32 * k) : ∀ i < 32, netBit 0 i = decide (32 * k + i < n) := by
    intro i hi
    rw [netBit_zero, decide_eq_false (by omega)]
  rw [masklen2ip6, if_neg (by omega)]
  split_ifs with h0 h32 h64 h96
  · exact ⟨_, rfl, forall_words (hzero 0 (by omega)) (hzero 1 (by omega)) (hzero 2 (by omega)) (hzero 3 (by omega))⟩
  · exact ⟨_, rfl, forall_words (hends 0 (by omega) h32) (hzero 1 h32) (hzero 2 (by omega)) (hzero 3 (by omega))⟩
  · exact ⟨_, rfl, forall_words (hones 0 (by omega)) (hends 1 (by omega) h64) (hzero 2 h64) (hzero 3 (by omega))⟩
  · exact ⟨_, rfl, forall_words (hones 0 (by omega)) (hones 1 (by omega)) (hends 2 (by omega) h96) (hzero 3 h96)⟩
  · exact ⟨_, rfl, forall_words (hones 0 (by omega)) (hones 1 (by omega)) (hones 2 (by omega)) (hends 3 (by omega) h)⟩

theorem ipMasklen_eq (h : Leads (netBit m) n) : ipMasklen m = some n := by
  obtain ⟨k, hk, hleads⟩ := ipMasklen_leads m
  rw [hk, hleads.unique h]

theorem leads_of_bits (h : n ≤ 32) (hbits : ∀ i < 32, netBit m i = decide (i < n)) : Leads (netBit m) n :=
  ⟨h, fun i hi => (hbits i (Nat.lt_of_lt_of_le hi h)).trans (decide_eq_true hi),
    fun hn => (hbits n hn).trans (decide_eq_false (Nat.lt_irrefl n))⟩

theorem ipMasklen_masklen2ip (h : n ≤ 32) : ∃ m, masklen2ip n = some m ∧ ipMasklen m = some n := by
  obtain ⟨m, hm, hbits⟩ := masklen2ip_bits h
  exact ⟨m, hm, ipMasklen_eq (leads_of_bits h hbits)⟩

theorem builtinClz_word (h : n < 32) (hbits : ∀ i < 32, netBit m i = decide (i < n)) :
    m ≠ 0xffffffff ∧ builtinClz (~~~ntohl m) = some n := by
  have hlen := ipMasklen_eq (leads_of_bits (Nat.le_of_lt h) hbits)
  rw [ipMasklen] at hlen
  constructor
  · rintro rfl
    have hbit := hbits n h
    rw [netBit_ones h, decide_eq_false (Nat.lt_irrefl n)] at hbit
    cases hbit
  · by_cases hzero : ~~~ntohl m = 0
    · rw [if_neg (not_not_intro hzero)] at hlen
      exact absurd (Option.some.inj hlen).symm (Nat.ne_of_lt h)
    · rwa [if_pos hzero] at hlen

theorem ip6Masklen_masklen2ip6 (h : n ≤ 128) : ∃ m, masklen2ip6 n = some m ∧ ip6Masklen m = some n := by
  obtain ⟨m, hm, hbits⟩ := masklen2ip6_bits h
  -- the words before the one in which the length ends, and that one
  have hones (k : Fin 4) (hk : 32 * k.val + 32 ≤ n) : m k = 0xffffffff := by
    refine word_ext fun i hi => ?_
    rw [hbits k i hi, netBit_ones hi, decide_eq_true (by omega)]
  have hends (k : Fin 4) (hk : 32 * k.val ≤ n) (hk' : n < 32 * k.val + 32) :
      m k ≠ 0xffffffff ∧ builtinClz (~~~ntohl (m k)) = some (n - 32 * k.val) := by
    refine builtinClz_word (by omega) fun i hi => ?_
    rw [hbits k i hi]
    exact decide_eq_decide.mpr (by omega)
  refine ⟨m, hm, ?_⟩
  rw [ip6Masklen]
  by_cases h32 : n < 32
  · rw [if_pos (hends 0 (Nat.zero_le n) h32).1, (hends 0 (Nat.zero_le n) h32).2]
    rfl
  rw [if_neg (not_not_intro (hones 0 (Nat.not_lt.mp h32)))]
  by_cases h64 : n < 64
  · rw [if_pos (hends 1 (Nat.not_lt.mp h32) h64).1, (hends 1 (Nat.not_lt.mp h32) h64).2]
    exact congrArg some (Nat.sub_add_cancel (Nat.not_lt.mp h32))
  rw [if_neg (not_not_intro (hones 1 (Nat.not_lt.mp h64)))]
  by_cases h96 : n < 96
  · rw [if_pos (hends 2 (Nat.not_lt.mp h64) h96).1, (hends 2 (Nat.not_lt.mp h64) h96).2]
    exact congrArg some (Nat.sub_add_cancel (Nat.not_lt.mp h64))
  rw [if_neg (not_not_intro (hones 2 (Nat.not_lt.mp h96)))]
  by_cases h128 : n < 128
  · rw [if_pos (hends 3 (Nat.not_lt.mp h96) h128).1, (hends 3 (Nat.not_lt.mp h96) h128).2]
    exact congrArg some (Nat.sub_add_cancel (Nat.not_lt.mp h96))
  · obtain rfl : n = 128 := by omega
    exact if_neg (not_not_intro (hones 3 le_rfl))

theorem masklen2ip_ipMasklen_iff : (∃ n, ipMasklen m = some n ∧ masklen2ip n = some m) ↔ Contiguous m := by
  constructor
  · rintro ⟨n, hn, hm⟩
    obtain ⟨k, hk, hleads⟩ := ipMasklen_leads m
    cases hk.symm.trans hn
    obtain ⟨m', hm', hbits⟩ := masklen2ip_bits hleads.le
    cases hm.symm.trans hm'
    exact ⟨n, hleads.le, hbits⟩
  · rintro ⟨n, hn, hbits⟩
    obtain ⟨m', hm', hbits'⟩ := masklen2ip_bits hn
    have hsame : m' = m := word_ext fun i hi => (hbits' i hi).trans (hbits i hi).symm
    exact ⟨n, ipMasklen_eq (leads_of_bits hn hbits), hsame ▸ hm'⟩

theorem addrWord_bytes (m : UInt32) : addrWord (LittleEndian.bytes 4 m.toNat) 0 = m := by
  have hslice : slice (LittleEndian.bytes 4 m.toNat) (4 * 0) (4 * 0 + 4) = LittleEndian.bytes 4 m.toNat := rfl
  rw [addrWord, hslice, LittleEndian.value_bytes, Nat.mod_eq_of_lt m.toNat_lt, UInt32.ofNat_toNat]

theorem ipMasklen_netmaskToPrefix {inet : Inet} {str : List UInt8} (h : inet.pton afInet str = some (LittleEndian.bytes 4 m.toNat)) :
    ipMasklen m = some (netmaskToPrefix inet str) := by
  rw [netmaskToPrefix, parseAddr, h, Option.getD_some, addrWord_bytes]
  have hleads := @countOnes_leads 0 (ntohl m) 32 rfl fun i hi => absurd hi (Nat.not_lt_zero i)
  exact ipMasklen_eq (hleads.congr fun i hi => (testBit_ntohl m hi).symm)

/-! ## Masking an address -/

theorem Prefix.eq_of_bytes (hf : p.family = q.family) (hlen : p.prefixlen = q.prefixlen) (h : ∀ i < 48, p.byte i = q.byte i) :
    p = q := by
  obtain ⟨f, len, u, hu⟩ := p
  obtain ⟨f', len', u', hu'⟩ := q
  have hsame : u = u' := by
    refine List.ext_getElem (hu.trans hu'.symm) fun i hi hi' => ?_
    have hbyte := h i (hu ▸ hi)
    rwa [byte, byte, List.getD_eq_getElem?_getD, List.getD_eq_getElem?_getD, List.getElem?_eq_getElem hi, List.getElem?_eq_getElem hi']
      at hbyte
  cases hf
  cases hlen
  cases hsame
  rfl

/-- The bits past the length are cleared in the first `size` bytes, and nothing else is changed. -/
structure Masked (size : ℕ) (p q : Prefix) : Prop where
  family : q.family = p.family
  prefixlen : q.prefixlen = p.prefixlen
  cleared : Cleared p.prefixlen.toNat size p.byte q.byte
  rest : ∀ i, size ≤ i → q.byte i = p.byte i

variable {r : Prefix} {size : ℕ}

theorem Masked.again (h : Masked size p q) (h' : Masked size q r) : r = q := by
  refine Prefix.eq_of_bytes h'.family h'.prefixlen fun i _ => ?_
  rcases Nat.lt_or_ge i size with hi | hi
  · refine byte_ext fun j hj => ?_
    have hlast := h'.cleared (8 * i + j) (by omega)
    have hfirst := h.cleared (8 * i + j) (by omega)
    rw [h.prefixlen, hfirst, ← Bool.and_assoc, Bool.and_self, ← hfirst] at hlast
    rwa [bitAt, bitAt, Nat.mul_add_div (by decide), Nat.div_eq_of_lt hj, Nat.add_zero, Nat.mul_add_mod, Nat.mod_eq_of_lt hj] at hlast
  · exact h'.rest i hi

theorem applyMaskIpv4_masked (h : p.prefixlen.toNat ≤ 32) : ∃ q, applyMaskIpv4 p = some q ∧ Masked 4 p q := by
  obtain ⟨q, hq, hcleared⟩ := applyMaskIpv4_spec h
  obtain ⟨m, hm, -⟩ := masklen2ip_spec h
  have hput := hq
  rw [applyMaskIpv4, hm] at hput
  obtain rfl := Option.some.inj hput
  refine ⟨_, hq, Prefix.family_put, Prefix.prefixlen_put, hcleared, fun i hi => ?_⟩
  rw [Prefix.byte_put (by rw [LittleEndian.length_bytes]; decide), LittleEndian.length_bytes, if_neg (by omega)]

theorem applyMaskIpv6_masked (p : Prefix) : Masked 16 p (applyMaskIpv6 p) := by
  refine ⟨?_, ?_, applyMaskIpv6_spec p, fun i hi => ?_⟩ <;> rw [applyMaskIpv6] <;> split_ifs with hindex
  · exact Prefix.family_put
  · rfl
  · exact Prefix.prefixlen_put
  · rfl
  · rw [Prefix.byte_put (by rw [List.length_replicate]; omega), List.length_replicate, if_neg (by omega),
      Prefix.byte_setByte (by omega), if_neg (by omega)]
  · rfl

theorem netBit_word {a : List UInt8} (hk : 4 * k + 4 ≤ a.length) (hi : i < 32) :
    netBit (addrWord a k) i = bitAt (fun j => a.getD j 0) (32 * k + i) := by
  have hlen : (slice a (4 * k) (4 * k + 4)).length = 4 := by rw [length_slice hk, Nat.add_sub_cancel_left]
  have hlt := LittleEndian.value_lt (slice a (4 * k) (4 * k + 4))
  rw [hlen] at hlt
  have hbyte : (slice a (4 * k) (4 * k + 4)).getD (i / 8) 0 = a.getD (4 * k + i / 8) 0 := by
    rw [List.getD_eq_getElem?_getD, slice_getElem? (by omega), List.getD_eq_getElem?_getD]
  rw [netBit, addrWord, UInt32.toNat_ofNat', Nat.mod_eq_of_lt hlt, LittleEndian.testBit_value _ _ (by omega), hbyte, bitAt, bit,
    show (32 * k + i) / 8 = 4 * k + i / 8 by omega, show (32 * k + i) % 8 = i % 8 by omega]

theorem netBit_addrWord (p : Prefix) (hk : 4 * k + 4 ≤ 48) (hi : i < 32) : netBit (addrWord p.u k) i = bitAt p.byte (32 * k + i) :=
  netBit_word (by rw [p.length_u]; exact hk) hi

theorem Masked.and {mask : UInt32} (h : Masked size p q) (hk : 4 * k + 4 ≤ size) (hsize : size ≤ 48)
    (hmask : ∀ i < 32, netBit mask i = decide (32 * k + i < p.prefixlen.toNat)) : addrWord q.u k = addrWord p.u k &&& mask := by
  refine word_ext fun i hi => ?_
  rw [netBit_addrWord q (by omega) hi, h.cleared _ (by omega), netBit_and, netBit_addrWord p (by omega) hi, hmask i hi, Bool.and_comm]

theorem Cleared.cleared {s t u : ℕ → UInt8} (h : Cleared n k s t) (h' : Cleared j k t u) : Cleared (min j n) k s u := by
  intro i hi
  rw [h' i hi, h i hi, ← Bool.and_assoc, ← Bool.decide_and]
  exact congrArg (· && bitAt s i) (decide_eq_decide.mpr (by omega))

/-- What the masks of a family do to the addresses, of `words` words of 32 bits. -/
structure Masks (family : UInt8) (words : ℕ) (apply : Prefix → Option Prefix) (mask : ℕ → Option (Fin words → UInt32)) : Prop where
  and : ∀ p : Prefix, p.prefixlen.toNat ≤ 32 * words → ∃ q m, apply p = some q ∧ mask p.prefixlen.toNat = some m ∧
    ∀ k : Fin words, addrWord q.u k = addrWord p.u k &&& m k
  idempotent : ∀ p : Prefix, p.prefixlen.toNat ≤ 32 * words → ∃ q, apply p = some q ∧ apply q = some q
  twice : ∀ (p : Prefix) (m n : UInt16), p.family = family → m.toNat ≤ 32 * words → n.toNat ≤ 32 * words →
    ∃ q r, applyMask (p.cut n) = some q ∧ applyMask (q.cut m) = some r ∧ Cleared (min m.toNat n.toNat) (4 * words) p.byte r.byte

theorem masks_of_masked {family : UInt8} {words : ℕ} {apply : Prefix → Option Prefix} {mask : ℕ → Option (Fin words → UInt32)}
    (hwords : 4 * words ≤ 48) (happly : ∀ p, p.family = family → applyMask p = apply p)
    (hmasked : ∀ p : Prefix, p.prefixlen.toNat ≤ 32 * words → ∃ q, apply p = some q ∧ Masked (4 * words) p q)
    (hmask : ∀ n ≤ 32 * words, ∃ m, mask n = some m ∧ ∀ k : Fin words, ∀ i < 32, netBit (m k) i = decide (32 * k.val + i < n)) :
    Masks family words apply mask := by
  refine ⟨fun p hp => ?_, fun p hp => ?_, fun p m n hf hm hn => ?_⟩
  · obtain ⟨q, hq, h⟩ := hmasked p hp
    obtain ⟨m, hm, hbits⟩ := hmask _ hp
    exact ⟨q, m, hq, hm, fun k => h.and (by omega) hwords (hbits k)⟩
  · obtain ⟨q, hq, h⟩ := hmasked p hp
    obtain ⟨r, hr, h'⟩ := hmasked q (h.prefixlen ▸ hp)
    exact ⟨q, hq, h.again h' ▸ hr⟩
  · obtain ⟨q, hq, h⟩ := hmasked (p.cut n) hn
    obtain ⟨r, hr, h'⟩ := hmasked (q.cut m) hm
    exact ⟨q, r, (happly (p.cut n) hf).trans hq, (happly (q.cut m) (h.family.trans hf)).trans hr, Cleared.cleared h.cleared h'.cleared⟩

/-- The netmasks of the lengths, and the lengths of the netmasks. -/
theorem netmask_arithmetic (inet : Inet) :
    (∀ n ≤ 32, ∃ m, masklen2ip n = some m ∧ ipMasklen m = some n) ∧
    (∀ n ≤ 128, ∃ m, masklen2ip6 n = some m ∧ ip6Masklen m = some n) ∧
    (∀ m, (∃ n, ipMasklen m = some n ∧ masklen2ip n = some m) ↔ Contiguous m) ∧
    (∀ m str, inet.pton afInet str = some (LittleEndian.bytes 4 m.toNat) → ipMasklen m = some (netmaskToPrefix inet str)) ∧
    Masks afInet 1 applyMaskIpv4 (fun n => (masklen2ip n).map fun m _ => m) ∧
    Masks afInet6 4 (fun p => some (applyMaskIpv6 p)) masklen2ip6 := by
  refine ⟨fun n => ipMasklen_masklen2ip, fun n => ip6Masklen_masklen2ip6, fun m => masklen2ip_ipMasklen_iff,
    fun m str => ipMasklen_netmaskToPrefix, ?_, ?_⟩
  · refine masks_of_masked (by decide) (fun p hf => if_pos hf) (fun p => applyMaskIpv4_masked) fun n hn => ?_
    obtain ⟨m, hm, hbits⟩ := masklen2ip_bits hn
    refine ⟨fun _ => m, by rw [hm]; rfl, fun k i hi => ?_⟩
    rw [hbits i hi, show k.val = 0 by omega, Nat.mul_zero, Nat.zero_add]
  · refine masks_of_masked (by decide) (fun p hf => ?_) (fun p _ => ⟨_, rfl, applyMaskIpv6_masked p⟩) fun n => masklen2ip6_bits
    rw [applyMask, hf, if_neg (by decide), if_pos rfl]

end Yjc.Network
