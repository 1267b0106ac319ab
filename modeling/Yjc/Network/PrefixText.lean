import Yjc.Lib.InetText
import Yjc.Network.PrefixAgreement

/-! Prefixes as text, in `network/prefix.c`. -/

namespace Yjc.Network
open CLib Mem InetText

/-- `inet_ntop` and `inet_pton`: the text of an address, and the address that a text has if any. -/
structure Inet where
  ntop : UInt8 → List UInt8 → List UInt8
  pton : UInt8 → List UInt8 → Option (List UInt8)

def text (s : String) : List UInt8 := s.toList.map ch

def prefixMac2str (mac : List UInt8) : List UInt8 := hexes mac

def lengthDigits (prefixlen : ℕ) : List UInt8 :=
  let z := decide (100 ≤ prefixlen)
  let byte := if z then prefixlen - 100 else prefixlen
  let b := byte % 10
  let a := byte / 10
  (if z then [ch '1'] else []) ++ (if a ≠ 0 ∨ z then [UInt8.ofNat (48 + a)] else []) ++ [UInt8.ofNat (48 + b)]

/-- The text that is left in `size` bytes; `none` where it does not fit the buffer of `PREFIX2STR_BUFFER` bytes. The text of `AF_EVPN`
comes from functions of its own. -/
def prefix2str (inet : Inet) (prefixevpn2str : Prefix → ℕ → List UInt8) (p : Prefix) (size : ℕ) : Option (List UInt8) :=
  if p.family = afInet ∨ p.family = afInet6 then
    let buf := inet.ntop p.family (slice p.u 0 (prefixBlen p.family)) ++ ch '/' :: lengthDigits p.prefixlen.toNat
    if buf.length < 80 then some (buf.take (size - 1)) else none
  else if p.family = afEthernet then
    some ((prefixMac2str (slice p.u 0 6) ++ ch '/' :: decimal p.prefixlen.toNat).take (size - 1))
  else if p.family = afEvpn then some (prefixevpn2str p size)
  else if p.family = afFlowspec then some ((text "FS prefix").take (size - 1))
  else some ((text "UNK prefix").take (size - 1))

/-- `(uint8_t)atoi(pnt)`; `none` for a number that `atoi` cannot have. -/
def readLength (pnt : List UInt8) : Option ℕ := (atoi pnt).map fun n => (n % 2 ^ 8).toNat

/-- The value returned, and the prefix as it is left. -/
def str2prefixIp (inet : Inet) (family : UInt8) (maxBitlen : ℕ) (str : List UInt8) (p : Prefix) : Option (ℤ × Prefix) :=
  match str.dropWhile (· ≠ ch '/') with
  | [] =>
    match inet.pton family str with
    | none => some (0, p)
    | some a => some (1, { p.put 0 a with family := family, prefixlen := UInt16.ofNat maxBitlen })
  | _ :: pnt =>
    match inet.pton family (str.takeWhile (· ≠ ch '/')) with
    | none => some (0, p)
    | some a => do
      let plen ← readLength pnt
      if maxBitlen < plen then some (0, p.put 0 a)
      else some (1, { p.put 0 a with family := family, prefixlen := UInt16.ofNat plen })

def str2prefixIpv4 (inet : Inet) : List UInt8 → Prefix → Option (ℤ × Prefix) := str2prefixIp inet afInet 32

def str2prefixIpv6 (inet : Inet) : List UInt8 → Prefix → Option (ℤ × Prefix) := str2prefixIp inet afInet6 128

def isZeroMac (p : Prefix) : Bool := (slice p.u 0 6).all (· = 0)

/-- The address in `strAddr`, with the length `plen` that the text has given. -/
def ethAddr (strAddr : List UInt8) (plen : ℕ) (slash : Bool) (p : Prefix) : ℤ × Prefix :=
  match scanHexes 5 strAddr with
  | none => (0, p)
  | some a =>
    let p := { p.put 0 (a.map UInt8.ofNat) with family := afEthernet, prefixlen := UInt16.ofNat plen }
    (1, if ¬slash ∧ isZeroMac p then { p with prefixlen := 0 } else p)

/-- The text before a slash is copied with the slash. `struct prefix_eth` has 8 bytes for the address. -/
def str2prefixEth (str : List UInt8) (p : Prefix) : Option (ℤ × Prefix) :=
  if str = text "any" then some (1, { p.put 0 (List.replicate 8 0) with family := afEthernet, prefixlen := 0 })
  else
    match str.dropWhile (· ≠ ch '/') with
    | [] => some (ethAddr str 48 false p)
    | slash :: pnt => do
      let plen ← readLength pnt
      if 48 < plen then some (0, p) else some (ethAddr (str.takeWhile (· ≠ ch '/') ++ [slash]) plen true p)

/-- The three formats are tried in turn on the same prefix. -/
def str2prefix (inet : Inet) : Option (List UInt8) → Option Prefix → Option (ℤ × Option Prefix)
  | some str, some p => do
    let (ret, p) ← str2prefixIpv4 inet str p
    if ret ≠ 0 then return (ret, some p)
    let (ret, p) ← str2prefixIpv6 inet str p
    if ret ≠ 0 then return (ret, some p)
    let (ret, p) ← str2prefixEth str p
    return (ret, some p)
  | _, p => some (0, p)

/-- What the system documents of the two functions. -/
structure Inet.Documented (inet : Inet) : Prop where
  pton_ntop : ∀ f a, f = afInet ∨ f = afInet6 → a.length = prefixBlen f → inet.pton f (inet.ntop f a) = some a
  chars : ∀ f a, f = afInet ∨ f = afInet6 → a.length = prefixBlen f → ∀ c ∈ inet.ntop f a, isxdigit c ∨ c = ch '.' ∨ c = ch ':'
  length_lt : ∀ f a, f = afInet ∨ f = afInet6 → a.length = prefixBlen f → (inet.ntop f a).length < 46
  rejects_ipv6 : ∀ a, a.length = 16 → inet.pton afInet (inet.ntop afInet6 a) = none
  rejects_mac : ∀ f mac, f = afInet ∨ f = afInet6 → mac.length = 6 → inet.pton f (prefixMac2str mac) = none

variable {inet : Inet} {p q : Prefix} {str addr a : List UInt8} {f : UInt8} {k n maxBitlen : ℕ}

theorem lengthDigits_eq (h : n ≤ 128) : lengthDigits n = decimal n := by
  have hall : ∀ n : Fin 129, lengthDigits n = decimal n := by decide +kernel
  exact hall ⟨n, Nat.lt_succ_of_le h⟩

theorem readLength_decimal (h : n ≤ 128) : readLength (decimal n) = some n := by
  rw [readLength, atoi_decimal (by omega), Option.map_some]
  congr 1
  omega

theorem not_slash {c : UInt8} (h : isxdigit c ∨ c = ch '.' ∨ c = ch ':') : c ≠ ch '/' := by
  rintro rfl
  revert h
  decide

theorem span_slash (h : ∀ c ∈ addr, c ≠ ch '/') (rest : List UInt8) :
    (addr ++ ch '/' :: rest).takeWhile (· ≠ ch '/') = addr ∧ (addr ++ ch '/' :: rest).dropWhile (· ≠ ch '/') = ch '/' :: rest :=
  span_append (fun c hc => decide_eq_true (h c hc)) (notFrom_cons.mpr (by decide))

theorem str2prefixIp_none (h : ∀ c ∈ addr, c ≠ ch '/') (hpton : inet.pton f addr = none) (rest : List UInt8) :
    str2prefixIp inet f maxBitlen (addr ++ ch '/' :: rest) p = some (0, p) := by
  obtain ⟨htake, hdrop⟩ := span_slash h rest
  simp only [str2prefixIp, hdrop, htake, hpton]

theorem str2prefixIp_some (h : ∀ c ∈ addr, c ≠ ch '/') (hpton : inet.pton f addr = some a) (hn : n ≤ maxBitlen) (hmax : maxBitlen ≤ 128) :
    str2prefixIp inet f maxBitlen (addr ++ ch '/' :: decimal n) p =
      some (1, { p.put 0 a with family := f, prefixlen := UInt16.ofNat n }) := by
  obtain ⟨htake, hdrop⟩ := span_slash h (decimal n)
  simp only [str2prefixIp, hdrop, htake, hpton, readLength_decimal (hn.trans hmax)]
  exact if_neg (Nat.not_lt.mpr hn)

theorem text_any_ne (mac : List UInt8) (hmac : mac.length = 6) (rest : List UInt8) :
    prefixMac2str mac ++ ch '/' :: rest ≠ text "any" := by
  obtain ⟨b, bs, rfl⟩ := List.exists_cons_of_length_eq_add_one hmac
  intro h
  have hlen := congrArg List.length h
  rw [List.length_append, prefixMac2str, length_hexes, List.length_cons] at hlen
  have hbs : bs.length = 5 := Nat.succ.inj hmac
  rw [hbs, show (text "any").length = 3 from rfl] at hlen
  omega

theorem str2prefixEth_some {mac : List UInt8} (hmac : mac.length = 6) (hn : n ≤ 48) :
    str2prefixEth (prefixMac2str mac ++ ch '/' :: decimal n) p =
      some (1, { p.put 0 mac with family := afEthernet, prefixlen := UInt16.ofNat n }) := by
  have hslash : ∀ c ∈ prefixMac2str mac, c ≠ ch '/' := fun c hc => not_slash ((mem_hexes hc).imp_right .inr)
  obtain ⟨htake, hdrop⟩ := span_slash hslash (decimal n)
  have hscan : scanHexes 5 (prefixMac2str mac ++ [ch '/']) = some (mac.map UInt8.toNat) := by
    obtain ⟨b, bs, rfl⟩ := List.exists_cons_of_length_eq_add_one hmac
    rw [← Nat.succ.inj hmac]
    exact scanHexes_hexes b bs _
  have hbytes : (mac.map UInt8.toNat).map UInt8.ofNat = mac := by
    rw [List.map_map]
    exact (List.map_congr_left fun b _ => UInt8.ofNat_toNat).trans (List.map_id mac)
  rw [str2prefixEth, if_neg (text_any_ne mac hmac _)]
  simp only [hdrop, htake, readLength_decimal (hn.trans (by decide))]
  refine (if_neg (Nat.not_lt.mpr hn)).trans ?_
  simp only [ethAddr, hscan, hbytes]
  rfl

theorem str2prefix_ipv4 (h : ∀ c ∈ addr, c ≠ ch '/') (hpton : inet.pton afInet addr = some a) (hn : n ≤ 32) :
    str2prefix inet (some (addr ++ ch '/' :: decimal n)) (some p) =
      some (1, some { p.put 0 a with family := afInet, prefixlen := UInt16.ofNat n }) := by
  rw [ str2prefix, str2prefixIpv4, str2prefixIp_some h hpton hn (by decide)]
  rfl

theorem str2prefix_ipv6 (h : ∀ c ∈ addr, c ≠ ch '/') (hnone : inet.pton afInet addr = none) (hpton : inet.pton afInet6 addr = some a)
    (hn : n ≤ 128) : str2prefix inet (some (addr ++ ch '/' :: decimal n)) (some p) =
      some (1, some { p.put 0 a with family := afInet6, prefixlen := UInt16.ofNat n }) := by
  rw [ str2prefix, str2prefixIpv4, str2prefixIp_none h hnone, Option.bind_eq_bind, Option.bind_some]
  change (str2prefixIp inet afInet6 128 (addr ++ ch '/' :: decimal n) p >>= _) = _
  rw [str2prefixIp_some h hpton hn (by decide)]
  rfl

theorem str2prefix_eth (hinet : inet.Documented) {mac : List UInt8} (hmac : mac.length = 6) (hn : n ≤ 48) :
    str2prefix inet (some (prefixMac2str mac ++ ch '/' :: decimal n)) (some p) =
      some (1, some { p.put 0 mac with family := afEthernet, prefixlen := UInt16.ofNat n }) := by
  have hslash : ∀ c ∈ prefixMac2str mac, c ≠ ch '/' := fun c hc => not_slash ((mem_hexes hc).imp_right .inr)
  rw [ str2prefix, str2prefixIpv4, str2prefixIp_none hslash (hinet.rejects_mac _ _ (.inl rfl) hmac), Option.bind_eq_bind, Option.bind_some]
  change (str2prefixIp inet afInet6 128 _ p >>= _) = _
  rw [str2prefixIp_none hslash (hinet.rejects_mac _ _ (.inr rfl) hmac), Option.bind_eq_bind, Option.bind_some]
  change (str2prefixEth _ p >>= _) = _
  rw [str2prefixEth_some hmac hn]
  rfl

def address (p : Prefix) : List UInt8 := slice p.u 0 (prefixBlen p.family)

theorem length_address (p : Prefix) : (address p).length = prefixBlen p.family := by
  rw [address, length_slice (by rw [p.length_u]; exact (prefixBlen_le _).trans (by decide)), Nat.sub_zero]

theorem address_getD (p : Prefix) {i : ℕ} (hi : i < prefixBlen p.family) : (address p).getD i 0 = p.byte i := by
  rw [address, List.getD_eq_getElem?_getD, slice_getElem? (by omega), Nat.zero_add, Prefix.byte, List.getD_eq_getElem?_getD]

theorem restored (p q : Prefix) :
    ∃ q', q' = { q.put 0 (address p) with family := p.family, prefixlen := UInt16.ofNat p.prefixlen.toNat } ∧
      q'.family = p.family ∧ q'.prefixlen = p.prefixlen ∧ ∀ i < prefixBlen p.family, q'.byte i = p.byte i := by
  refine ⟨_, rfl, rfl, UInt16.ofNat_toNat, fun i hi => ?_⟩
  have hlen := length_address p
  have hle := prefixBlen_le p.family
  change (q.put 0 (address p)).byte i = p.byte i
  rw [Prefix.byte_put (by omega), if_pos (by omega), Nat.sub_zero, address_getD p hi]

theorem length_decimal_le (h : n ≤ 128) : (decimal n).length ≤ 3 := by
  have hall : ∀ n : Fin 129, (decimal n).length ≤ 3 := by decide +kernel
  exact hall ⟨n, Nat.lt_succ_of_le h⟩

theorem prefix2str_ip (hinet : inet.Documented) (prefixevpn2str : Prefix → ℕ → List UInt8) (hp : WellFormed p) {size : ℕ} (hsize : 80 ≤ size)
    (hf : p.family = afInet ∨ p.family = afInet6) :
    prefix2str inet prefixevpn2str p size = some (inet.ntop p.family (address p) ++ ch '/' :: decimal p.prefixlen.toNat) := by
  have hntop := hinet.length_lt _ _ hf (length_address p)
  have hlen := hp.prefixlen_le
  have hdigits := length_decimal_le hlen
  have hbuf : (inet.ntop p.family (address p) ++ ch '/' :: decimal p.prefixlen.toNat).length < 80 := by
    rw [List.length_append, List.length_cons]
    omega
  rw [prefix2str, if_pos hf, lengthDigits_eq hlen]
  refine (if_pos hbuf).trans (congrArg some ?_)
  exact List.take_of_length_le (Nat.le_trans (Nat.le_of_lt_succ hbuf) (by omega))

theorem prefix2str_mac (inet : Inet) (prefixevpn2str : Prefix → ℕ → List UInt8) (hp : WellFormed p) {size : ℕ} (hsize : 80 ≤ size)
    (hf : p.family = afEthernet) :
    prefix2str inet prefixevpn2str p size = some (prefixMac2str (address p) ++ ch '/' :: decimal p.prefixlen.toNat) := by
  have hdigits := length_decimal_le hp.prefixlen_le
  have haddr : (address p).length = 6 := by rw [length_address, hf]; rfl
  have hmac : (prefixMac2str (address p)).length = 17 := by
    obtain ⟨b, bs, h⟩ := List.exists_cons_of_length_eq_add_one haddr
    rw [h] at haddr ⊢
    rw [prefixMac2str, length_hexes, Nat.succ.inj haddr]
  have hslice : slice p.u 0 6 = address p := by rw [address, hf]; rfl
  rw [prefix2str, if_neg (by rw [hf]; decide), if_pos hf, hslice, List.take_of_length_le]
  rw [List.length_append, List.length_cons]
  omega

/-- A prefix is read back from its text. -/
theorem prefix_text_round_trip (hinet : inet.Documented) (prefixevpn2str : Prefix → ℕ → List UInt8) (hp : WellFormed p) {size : ℕ}
    (hsize : 80 ≤ size) (q : Prefix) : ∃ str q', prefix2str inet prefixevpn2str p size = some str ∧
      str2prefix inet (some str) (some q) = some (1, some q') ∧ q'.family = p.family ∧ q'.prefixlen = p.prefixlen ∧
      ∀ i < prefixBlen p.family, q'.byte i = p.byte i := by
  obtain ⟨q', hq', hrest⟩ := restored p q
  have haddr := length_address p
  have hlen := hp.2
  have hslash (h : p.family = afInet ∨ p.family = afInet6) : ∀ c ∈ inet.ntop p.family (address p), c ≠ ch '/' :=
    fun c hc => not_slash (hinet.chars _ _ h haddr c hc)
  rcases hp.1 with hf | hf | hf
  · refine ⟨_, q', prefix2str_ip hinet prefixevpn2str hp hsize (.inl hf), ?_, hrest⟩
    have hpton := hinet.pton_ntop _ _ (.inl hf) haddr
    have hnoslash := hslash (.inl hf)
    rw [hf] at hq' haddr hpton hlen hnoslash ⊢
    rw [hq']
    exact str2prefix_ipv4 hnoslash hpton hlen
  · refine ⟨_, q', prefix2str_ip hinet prefixevpn2str hp hsize (.inr hf), ?_, hrest⟩
    have hpton := hinet.pton_ntop _ _ (.inr hf) haddr
    have hnoslash := hslash (.inr hf)
    rw [hf] at hq' haddr hpton hlen hnoslash ⊢
    rw [hq']
    exact str2prefix_ipv6 hnoslash (hinet.rejects_ipv6 _ haddr) hpton hlen
  · refine ⟨_, q', prefix2str_mac inet prefixevpn2str hp hsize hf, ?_, hrest⟩
    rw [hf] at hq' haddr hlen
    rw [hq']
    exact str2prefix_eth hinet haddr hlen

/-- The texts of the system. -/
def systemInet : Inet where
  ntop f a := if f = afInet then dotted a else ipv6Text a
  pton f m := if f = afInet then scanIpv4 m else scanIpv6 m

theorem systemInet_documented : systemInet.Documented where
  pton_ntop f a hf ha := by
    rcases hf with rfl | rfl
    · exact scanIpv4_dotted ha
    · exact scanIpv6_ipv6Text ha
  chars f a hf _ c hc := by
    rcases hf with rfl | rfl
    · exact (mem_dotted hc).imp (fun h => decide_eq_true (.inl h)) .inl
    · exact mem_ipv6Text hc
  length_lt f a hf ha := by
    rcases hf with rfl | rfl
    · obtain ⟨b, bs, rfl⟩ := List.exists_cons_of_length_eq_add_one ha
      have hbs : bs.length = 3 := Nat.succ.inj ha
      have hlen := length_dotted b bs
      change (dotted (b :: bs)).length < 46
      omega
    · exact Nat.lt_of_le_of_lt (length_ipv6Text ha) (by decide)
  rejects_ipv6 _ ha := scanIpv4_of_colon (colon_mem_ipv6Text ha)
  rejects_mac f mac hf hmac := by
    have hne : mac ≠ [] := List.ne_nil_of_length_eq_add_one hmac
    rcases hf with rfl | rfl
    · exact scanIpv4_of_colon (colon_mem_hexes (by omega))
    · exact scanIpv6_hexes hne (by omega)

/-- `10.0.0.1/8` -/
theorem prefix_text_round_trip_sample : ∃ str q',
    prefix2str systemInet (fun _ _ => []) ⟨afInet, 8, 10 :: 0 :: 0 :: 1 :: List.replicate 44 0, by decide⟩ 80 = some str ∧
    str2prefix systemInet (some str) (some ⟨afUnspec, 0, List.replicate 48 0, by decide⟩) = some (1, some q') ∧
    q'.family = afInet ∧ q'.prefixlen = 8 ∧
    ∀ i < 4, q'.byte i = Prefix.byte ⟨afInet, 8, 10 :: 0 :: 0 :: 1 :: List.replicate 44 0, by decide⟩ i :=
  prefix_text_round_trip systemInet_documented _ ⟨.inl rfl, by decide⟩ (le_refl 80) _

end Yjc.Network
