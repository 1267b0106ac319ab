import Yjc.Network.Netmask

/-! Random addresses of a network, in `network/ipaddr.c`. -/

namespace Yjc.Network
open CLib Mem BitPrefix

/-- `s6_addr32[k] |= w`, or the same for `s_addr` -/
def orWord (addr : List UInt8) (k : ℕ) (w : UInt32) : List UInt8 := store addr (4 * k) (LittleEndian.bytes 4 (addrWord addr k ||| w).toNat)

/-- `(1U << k) - 1` -/
def lowMask (k : ℕ) : UInt32 := (1 : UInt32) <<< UInt32.ofNat k - 1

/-- The random number within the mask: not .0, .1 or the broadcast address. -/
def clampIpv4 (mask rnd : UInt32) : UInt32 :=
  let rnd := rnd &&& mask
  let rnd := if rnd < 2 then 2 else rnd
  if rnd = mask then rnd - 1 else rnd

/-- The text of the address, with what is read from `/dev/urandom` if 4 bytes are. -/
def generateRandomIpv4Addr (inet : Inet) (base netmask : List UInt8) (urandom : Option UInt32) : List UInt8 :=
  let prefixLen := netmaskToPrefix inet netmask
  let addr := parseAddr inet afInet base
  inet.ntop afInet <|
    if prefixLen < 31 then
      match urandom with
      | some rnd => orWord addr 0 (htonl (if prefixLen ≠ 0 then clampIpv4 (lowMask (32 - prefixLen)) rnd else rnd))
      | none => addr
    else addr

def clampIpv6 (mask rnd : UInt32) : UInt32 :=
  let rnd := if rnd = 0 then rnd + 1 else rnd
  if rnd = mask then rnd - 1 else rnd

/-- `none` for a shift by less than 0 bits. -/
def generateRandomIpv6Addr (inet : Inet) (base : List UInt8) (prefixlen : ℕ) (urandom : Option UInt32) : Option (List UInt8) :=
  let addr := parseAddr inet afInet6 base
  let rnd := urandom.getD 0
  if 128 < prefixlen then none
  else
    let mask := if 96 < prefixlen then lowMask (128 - prefixlen) else 0xffffffff
    let rnd := if 96 < prefixlen then rnd &&& mask else rnd
    some (inet.ntop afInet6 (orWord addr 3 (htonl (clampIpv6 mask rnd))))

/-- The last `k` bits of a word in network byte order, as a number. -/
def hostPart (w : UInt32) (k : ℕ) : ℕ := (ntohl w).toNat % 2 ^ k

/-- The text is that of the address `a`, whose bits from the first `n` on are zero. -/
structure BaseAddr (inet : Inet) (family : UInt8) (base : List UInt8) (n : ℕ) (a : List UInt8) : Prop where
  parses : inet.pton family base = some a
  length : a.length = prefixBlen family
  host : ∀ i, n ≤ i → i < 8 * prefixBlen family → bitAt (fun j => a.getD j 0) i = false

/-- The text is that of a mask of `n` bits. -/
structure MaskText (inet : Inet) (netmask : List UInt8) (n : ℕ) : Prop where
  le : n ≤ 32
  parses : ∃ m : UInt32, inet.pton afInet netmask = some (LittleEndian.bytes 4 m.toNat) ∧ ∀ i < 32, netBit m i = decide (i < n)

/-- The address `r` is in the network of `a`, and its host part of `k` bits, at the end of the word `word`, is none of those in `taken`. -/
structure StaysIn (a r : List UInt8) (n word k : ℕ) (taken : List ℕ) : Prop where
  network : Agree n (fun j => r.getD j 0) fun j => a.getD j 0
  host : hostPart (addrWord r word) k ∉ taken

variable {inet : Inet} {base netmask a : List UInt8} {n k word i : ℕ} {v w x mask rnd : UInt32}

/-! ## Adding a word -/

theorem length_orWord (h : 4 * k + 4 ≤ a.length) : (orWord a k w).length = a.length :=
  length_store (by rw [LittleEndian.length_bytes]; exact h)

theorem addrWord_orWord (h : 4 * k + 4 ≤ a.length) : addrWord (orWord a k w) k = addrWord a k ||| w := by
  have hslice := slice_store_append a (LittleEndian.bytes 4 (addrWord a k ||| w).toNat) (Nat.le_refl (4 * k)) (by omega)
  rw [LittleEndian.length_bytes, slice_self, List.nil_append] at hslice
  rw [addrWord, orWord, hslice, LittleEndian.value_bytes, Nat.mod_eq_of_lt (UInt32.toNat_lt _), UInt32.ofNat_toNat]

theorem addrWord_orWord_before (h : 4 * k + 4 ≤ a.length) (hi : i < k) : addrWord (orWord a k w) i = addrWord a i := by
  rw [addrWord, orWord, slice_store_before (by omega) (by omega), addrWord]

theorem agree_orWord_iff (hlen : a.length = 4 * k + 4) (hn : n ≤ 32 * k + 32) :
    Agree n (fun j => (orWord a k (htonl x)).getD j 0) (fun j => a.getD j 0) ↔
      ∀ i < 32, 32 * k + i < n → x.toNat.testBit (31 - i) = true → bitAt (fun j => a.getD j 0) (32 * k + i) = true := by
  have hlen' : (orWord a k (htonl x)).length = a.length := length_orWord (by omega)
  -- the bits of the word, and those before it
  have hlast (i : ℕ) (hi : i < 32) : bitAt (fun j => (orWord a k (htonl x)).getD j 0) (32 * k + i) =
      (bitAt (fun j => a.getD j 0) (32 * k + i) || x.toNat.testBit (31 - i)) := by
    rw [← netBit_word (by omega) hi, addrWord_orWord (by omega), netBit_or, netBit_htonl x hi, netBit_word (by omega) hi]
  have hbefore (i : ℕ) (hi : i < 32 * k) : bitAt (fun j => (orWord a k (htonl x)).getD j 0) i = bitAt (fun j => a.getD j 0) i := by
    have hword := @netBit_word (i % 32) (i / 32) (orWord a k (htonl x)) (by omega) (by omega)
    rw [addrWord_orWord_before (by omega) (by omega), netBit_word (by omega) (by omega), Nat.div_add_mod] at hword
    exact hword.symm
  constructor
  · intro h i hi hin hset
    have hbit := h (32 * k + i) hin
    rw [hlast i hi, hset, Bool.or_true] at hbit
    exact hbit.symm
  · intro h i hin
    rcases Nat.lt_or_ge i (32 * k) with hi | hi
    · exact hbefore i hi
    · obtain ⟨j, rfl⟩ := Nat.exists_eq_add_of_le hi
      rw [hlast j (by omega)]
      cases hset : x.toNat.testBit (31 - j) with
      | false => exact Bool.or_false _
      | true => rw [h j (by omega) hin hset, Bool.or_true]

theorem hostPart_or (hk : k ≤ 32) (hx : x.toNat < 2 ^ k) (hv : ∀ i, 32 - k ≤ i → i < 32 → netBit v i = false) :
    hostPart (v ||| htonl x) k = x.toNat := by
  -- a number of `k` bits added to a word whose last `k` bits are zero
  apply Nat.eq_of_testBit_eq
  intro j
  -- bit `j` of the number is bit `31 - j` of the word as it is sent
  rw [hostPart, Nat.testBit_mod_two_pow]
  by_cases hj : j < k
  · have hbit := @testBit_ntohl (31 - j) (v ||| htonl x) (by omega)
    rw [show 31 - (31 - j) = j by omega, netBit_or, hv _ (by omega) (by omega), Bool.false_or, netBit_htonl x (by omega),
      show 31 - (31 - j) = j by omega] at hbit
    rw [decide_eq_true hj, Bool.true_and, hbit]
  · rw [decide_eq_false hj, Bool.false_and, Nat.testBit_lt_two_pow (Nat.lt_of_lt_of_le hx (Nat.pow_le_pow_right (by decide) (by omega)))]

/-! ## The random numbers -/

theorem toNat_lowMask (h : k ≤ 31) : (lowMask k).toNat = 2 ^ k - 1 := by
  have hall : ∀ k : Fin 32, (lowMask k).toNat = 2 ^ k.val - 1 := by decide
  exact hall ⟨k, Nat.lt_succ_of_le h⟩

theorem toNat_pred (h : 1 ≤ x.toNat) : (x - 1).toNat = x.toNat - 1 :=
  UInt32.toNat_sub_of_le _ _ (UInt32.le_iff_toNat_le.mpr h)

theorem toNat_and_le (rnd mask : UInt32) : (rnd &&& mask).toNat ≤ mask.toNat := by
  rw [UInt32.toNat_and]
  exact Nat.and_le_right

theorem clampIpv4_spec (h : 3 ≤ mask.toNat) (rnd : UInt32) : 2 ≤ (clampIpv4 mask rnd).toNat ∧ (clampIpv4 mask rnd).toNat < mask.toNat := by
  have hle := toNat_and_le rnd mask
  have hraised : 2 ≤ (if rnd &&& mask < 2 then 2 else rnd &&& mask).toNat ∧
      (if rnd &&& mask < 2 then 2 else rnd &&& mask).toNat ≤ mask.toNat := by
    split_ifs with hlow
    · exact ⟨le_rfl, by change 2 ≤ mask.toNat; omega⟩
    · exact ⟨UInt32.le_iff_toNat_le.mp (UInt32.not_lt.mp hlow), hle⟩
  -- it is lowered only from the mask, and then it is not 2
  rw [clampIpv4]
  generalize (if rnd &&& mask < 2 then 2 else rnd &&& mask) = y at hraised ⊢
  by_cases hy : y = mask
  · rw [if_pos hy, toNat_pred (by omega), hy]
    omega
  · have hne := mt UInt32.toNat_inj.mp hy
    rw [if_neg hy]
    omega

theorem clampIpv6_spec (h : 1 ≤ mask.toNat) (hle : rnd.toNat ≤ mask.toNat) :
    (clampIpv6 mask rnd).toNat < mask.toNat ∧ (2 ≤ mask.toNat → 1 ≤ (clampIpv6 mask rnd).toNat) := by
  have hraised : 1 ≤ (if rnd = 0 then rnd + 1 else rnd).toNat ∧ (if rnd = 0 then rnd + 1 else rnd).toNat ≤ mask.toNat := by
    split_ifs with hzero
    · rw [hzero]
      exact ⟨le_rfl, h⟩
    · have hne : rnd.toNat ≠ 0 := fun heq => hzero (UInt32.toNat_inj.mp heq)
      omega
  rw [clampIpv6]
  generalize (if rnd = 0 then rnd + 1 else rnd) = y at hraised ⊢
  by_cases hy : y = mask
  · rw [if_pos hy, toNat_pred hraised.1, hy]
    omega
  · have hne := mt UInt32.toNat_inj.mp hy
    rw [if_neg hy]
    omega

/-! ## The addresses -/

theorem BaseAddr.parseAddr {family : UInt8} (h : BaseAddr inet family base n a) : parseAddr inet family base = a := by
  rw [Network.parseAddr, h.parses, Option.getD_some]

theorem MaskText.netmaskToPrefix (h : MaskText inet netmask n) : netmaskToPrefix inet netmask = n := by
  obtain ⟨m, hm, hbits⟩ := h.parses
  have hlen := ipMasklen_netmaskToPrefix hm
  rw [ipMasklen_eq (leads_of_bits h.le hbits)] at hlen
  exact (Option.some.inj hlen).symm

theorem BaseAddr.stays {family : UInt8} (h : BaseAddr inet family base n a) (hlen : prefixBlen family = 4 * word + 4) (hn : n ≤ 32 * word + 32)
    (hk : k ≤ 32) (hkn : n + k ≤ 32 * word + 32) (hx : x.toNat < 2 ^ k) {taken : List ℕ} (htaken : x.toNat ∉ taken) :
    StaysIn a (orWord a word (htonl x)) n word k taken := by
  have hlength := h.length.trans hlen
  refine ⟨(agree_orWord_iff hlength hn).mpr fun i hi hin hset => ?_, ?_⟩
  · have hpow : 2 ^ k ≤ 2 ^ (31 - i) := Nat.pow_le_pow_right (by decide) (by omega)
    rw [Nat.testBit_lt_two_pow (Nat.lt_of_lt_of_le hx hpow)] at hset
    cases hset
  · have hzero (i : ℕ) (hi : 32 - k ≤ i) (hi' : i < 32) : netBit (addrWord a word) i = false := by
      rw [netBit_word (by omega) hi']
      exact h.host _ (by omega) (by omega)
    rw [addrWord_orWord (by omega), hostPart_or hk hx hzero]
    exact htaken

theorem generateRandomIpv4Addr_stays (hinet : inet.Documented) (h : BaseAddr inet afInet base n a) (hm : MaskText inet netmask n)
    (rnd : UInt32) : ∃ r, inet.pton afInet (generateRandomIpv4Addr inet base netmask (some rnd)) = some r ∧
      StaysIn a r n 0 (32 - n) (if 1 ≤ n ∧ n ≤ 30 then [0, 1, 2 ^ (32 - n) - 1] else []) := by
  have hle := hm.le
  have hlength : a.length = 4 := h.length
  rw [generateRandomIpv4Addr, hm.netmaskToPrefix, h.parseAddr]
  by_cases hlong : n < 31
  · rw [if_pos hlong]
    refine ⟨_, hinet.pton_ntop _ _ (.inl rfl) ((length_orWord (Nat.le_of_eq hlength.symm)).trans h.length), ?_⟩
    by_cases hzero : n = 0
    · -- no bit is kept, and the number is not masked
      rw [if_neg (not_not_intro hzero), if_neg (by omega)]
      exact h.stays rfl (by omega) (by omega) (by omega) (by rw [hzero]; exact rnd.toNat_lt) (by simp)
    · have hmask : (lowMask (32 - n)).toNat = 2 ^ (32 - n) - 1 := toNat_lowMask (by omega)
      have hfour : 2 ^ 2 ≤ 2 ^ (32 - n) := Nat.pow_le_pow_right (by decide) (by omega)
      have hclamp := @clampIpv4_spec (lowMask (32 - n)) (by omega) rnd
      rw [if_pos hzero, if_pos (by omega)]
      refine h.stays rfl (by omega) (by omega) (by omega) (by omega) ?_
      simp only [List.mem_cons, List.not_mem_nil, or_false]
      omega
  · -- one host or two: the base is returned
    rw [if_neg hlong, if_neg (by omega)]
    exact ⟨a, hinet.pton_ntop _ _ (.inl rfl) h.length, Agree.refl _ _, List.not_mem_nil⟩

theorem generateRandomIpv6Addr_eq (h : BaseAddr inet afInet6 base n a) (hn : n ≤ 128) (rnd : UInt32) :
    ∃ x : UInt32, generateRandomIpv6Addr inet base n (some rnd) = some (inet.ntop afInet6 (orWord a 3 (htonl x))) ∧
      (n < 128 → x.toNat < 2 ^ min 32 (128 - n) - 1) ∧ (n ≤ 126 → 1 ≤ x.toNat) ∧ (n = 128 → x = 1) := by
  rw [generateRandomIpv6Addr, h.parseAddr, if_neg (Nat.not_lt.mpr hn), Option.getD_some]
  refine ⟨_, rfl, ?_⟩
  by_cases hlong : 96 < n
  · rw [if_pos hlong, if_pos hlong, Nat.min_eq_right (by omega)]
    have hmask : (lowMask (128 - n)).toNat = 2 ^ (128 - n) - 1 := toNat_lowMask (by omega)
    have hle := toNat_and_le rnd (lowMask (128 - n))
    refine ⟨fun hlt => ?_, fun hshort => ?_, ?_⟩
    · have htwo : 2 ^ 1 ≤ 2 ^ (128 - n) := Nat.pow_le_pow_right (by decide) (by omega)
      rw [← hmask]
      exact (clampIpv6_spec (by omega) hle).1
    · have hfour : 2 ^ 2 ≤ 2 ^ (128 - n) := Nat.pow_le_pow_right (by decide) (by omega)
      exact (clampIpv6_spec (by omega) hle).2 (by omega)
    · -- the mask is zero, and the number is raised past it
      rintro rfl
      have hnone : rnd &&& lowMask (128 - 128) = 0 := UInt32.toNat_inj.mp (Nat.le_zero.mp (hle.trans_eq hmask))
      rw [hnone]
      rfl
  · rw [if_neg hlong, if_neg hlong, Nat.min_eq_left (by omega)]
    have hspec := @clampIpv6_spec 0xffffffff rnd (by decide) (Nat.le_of_lt_succ rnd.toNat_lt)
    exact ⟨fun _ => hspec.1, fun _ => hspec.2 (by decide), fun heq => by omega⟩

theorem stays_single_iff (hlen : a.length = 16) :
    StaysIn a (orWord a 3 (htonl 1)) 128 3 0 [] ↔ bitAt (fun j => a.getD j 0) 127 = true := by
  constructor
  · intro h
    exact (agree_orWord_iff hlen (by decide)).mp h.network 31 (by decide) (by decide) (by decide)
  · intro h
    refine ⟨(agree_orWord_iff hlen (by decide)).mpr fun i hi _ hset => ?_, List.not_mem_nil⟩
    have hlast : ∀ i : Fin 32, (1 : UInt32).toNat.testBit (31 - i) = true → i.val = 31 := by decide
    obtain rfl := hlast ⟨i, hi⟩ hset
    exact h

/-- The addresses stay in their networks, but for a single IPv6 address whose last bit is not set. -/
theorem random_addrs_stay_iff {n4 n6 : ℕ} {base4 base6 a4 a6 : List UInt8} (hinet : inet.Documented) (h4 : BaseAddr inet afInet base4 n4 a4)
    (hm : MaskText inet netmask n4) (h6 : BaseAddr inet afInet6 base6 n6 a6) (hn6 : n6 ≤ 128) (rnd4 rnd6 : UInt32) :
    (∃ r, inet.pton afInet (generateRandomIpv4Addr inet base4 netmask (some rnd4)) = some r ∧
      StaysIn a4 r n4 0 (32 - n4) (if 1 ≤ n4 ∧ n4 ≤ 30 then [0, 1, 2 ^ (32 - n4) - 1] else [])) ∧
    ((∃ r, (generateRandomIpv6Addr inet base6 n6 (some rnd6)).bind (inet.pton afInet6) = some r ∧
      StaysIn a6 r n6 3 (min 32 (128 - n6)) (if n6 ≤ 126 then [0, 2 ^ min 32 (128 - n6) - 1] else [])) ↔
      (n6 = 128 → bitAt (fun j => a6.getD j 0) 127 = true)) := by
  refine ⟨generateRandomIpv4Addr_stays hinet h4 hm rnd4, ?_⟩
  have hlength : a6.length = 16 := h6.length
  obtain ⟨x, hx, hbelow, habove, hsingle⟩ := generateRandomIpv6Addr_eq h6 hn6 rnd6
  rw [hx, Option.bind_some, hinet.pton_ntop _ _ (.inr rfl) ((length_orWord (Nat.le_of_eq hlength.symm)).trans h6.length)]
  have hexists (P : List UInt8 → Prop) (b : List UInt8) : (∃ r, some b = some r ∧ P r) ↔ P b := by
    constructor
    · rintro ⟨r, hr, h⟩
      exact Option.some.inj hr ▸ h
    · exact fun h => ⟨b, rfl, h⟩
  rw [hexists]
  rcases Nat.lt_or_eq_of_le hn6 with hlt | rfl
  · refine iff_of_true (h6.stays rfl (by omega) (by omega) (by omega) (Nat.lt_of_lt_of_le (hbelow hlt) (Nat.sub_le _ _)) ?_) fun heq => ?_
    · split_ifs with hshort
      · have := habove hshort
        have := hbelow hlt
        simp only [List.mem_cons, List.not_mem_nil, or_false]
        omega
      · exact List.not_mem_nil
    · omega
  · rw [hsingle rfl]
    exact (stays_single_iff hlength).trans ⟨fun h _ => h, fun h => h rfl⟩

/-- `10.0.0.0` with `255.0.0.0`, and `fd00::` with 64 bits. -/
theorem random_addrs_stay_iff_sample :
    (∃ r, systemInet.pton afInet (generateRandomIpv4Addr systemInet (text "10.0.0.0") (text "255.0.0.0") (some 0x80000007)) = some r ∧
      StaysIn [10, 0, 0, 0] r 8 0 24 [0, 1, 2 ^ 24 - 1]) ∧
    ((∃ r, (generateRandomIpv6Addr systemInet (text "fd00::") 64 (some 0)).bind (systemInet.pton afInet6) = some r ∧
      StaysIn (0xfd :: List.replicate 15 0) r 64 3 32 [0, 2 ^ 32 - 1]) ↔
        (64 = 128 → bitAt (fun j => (0xfd :: List.replicate 15 0).getD j 0) 127 = true)) := by
  have hhost4 : ∀ i < 32, 8 ≤ i → bitAt (fun j => [10, 0, 0, 0].getD j 0) i = false := by decide
  have hhost6 : ∀ i < 128, 64 ≤ i → bitAt (fun j => (0xfd :: List.replicate 15 0).getD j 0) i = false := by decide +kernel
  have hbase4 : BaseAddr systemInet afInet (text "10.0.0.0") 8 [10, 0, 0, 0] := ⟨by decide +kernel, rfl, fun i h hi => hhost4 i hi h⟩
  have hmask : MaskText systemInet (text "255.0.0.0") 8 := ⟨by decide, 255, by decide +kernel, by decide⟩
  have hbase6 : BaseAddr systemInet afInet6 (text "fd00::") 64 (0xfd :: List.replicate 15 0) :=
    ⟨by decide +kernel, rfl, fun i h hi => hhost6 i hi h⟩
  exact random_addrs_stay_iff systemInet_documented hbase4 hmask hbase6 (by decide) _ _

/-- `::` with 128 bits: the address is `::1`. -/
theorem random_addrs_leave : BaseAddr systemInet afInet6 (text "::") 128 (List.replicate 16 0) ∧
    generateRandomIpv6Addr systemInet (text "::") 128 (some 5) = some (text "::1") ∧
    ¬ ∃ r, (generateRandomIpv6Addr systemInet (text "::") 128 (some 5)).bind (systemInet.pton afInet6) = some r ∧
      Agree 128 (fun j => r.getD j 0) fun j => (List.replicate 16 0).getD j 0 := by
  have hresult : generateRandomIpv6Addr systemInet (text "::") 128 (some 5) = some (text "::1") := by decide +kernel
  have hpton : systemInet.pton afInet6 (text "::1") = some (List.replicate 15 0 ++ [1]) := by decide +kernel
  refine ⟨⟨by decide +kernel, rfl, fun i h hi => absurd h (Nat.not_le.mpr hi)⟩, hresult, ?_⟩
  rintro ⟨r, hr, h⟩
  rw [hresult, Option.bind_some, hpton] at hr
  cases hr
  exact absurd (h 127 (by decide)) (by decide)

end Yjc.Network
