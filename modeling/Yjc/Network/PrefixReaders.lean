import Mathlib.Data.List.TakeWhile
import Yjc.Network.PrefixText

/-! Which texts `str2prefix_ipv4` and `str2prefix_ipv6` accept, in `network/prefix.c`. -/

namespace Yjc.Network
open CLib Mem

/-- The texts of addresses have no slash. -/
def Inet.NoSlash (inet : Inet) : Prop := ∀ f s a, inet.pton f s = some a → ∀ c ∈ s, c ≠ ch '/'

/-- Digits, and nothing else, of a number up to `maxBitlen`. -/
structure LengthText (maxBitlen : ℕ) (ds : List UInt8) : Prop where
  ne_nil : ds ≠ []
  digits : ∀ c ∈ ds, isdigit c
  le : digitsValue ds ≤ maxBitlen

/-- The text is the address `a`, alone or with the length `n`. -/
inductive Denotes (inet : Inet) (family : UInt8) (maxBitlen : ℕ) : List UInt8 → List UInt8 → ℕ → Prop
  | host {str a : List UInt8} : inet.pton family str = some a → Denotes inet family maxBitlen str a maxBitlen
  | length {addr ds a : List UInt8} : inet.pton family addr = some a → LengthText maxBitlen ds →
      Denotes inet family maxBitlen (addr ++ ch '/' :: ds) a (digitsValue ds)

/-- The reader returns 1 with the prefix that the text denotes, or 0 with the prefix as it was for a text that denotes none. -/
structure ReadsExactly (inet : Inet) (family : UInt8) (maxBitlen : ℕ) (str : List UInt8) (p : Prefix) (ret : ℤ) (q : Prefix) : Prop where
  accepts : ret = 1 ↔ ∃ a n, Denotes inet family maxBitlen str a n
  stores : ∀ a n, Denotes inet family maxBitlen str a n → q = { p.put 0 a with family := family, prefixlen := UInt16.ofNat n }
  fails : ret ≠ 1 → ret = 0 ∧ q = p

/-- What follows an address and a slash is a length, or it is refused, where its number modulo 2⁸ is greater than any length, and then the
prefix has the address already. -/
def LengthSeen (inet : Inet) (family : UInt8) (maxBitlen : ℕ) (str : List UInt8) (p : Prefix) : Prop :=
  ∀ addr pnt a, str = addr ++ ch '/' :: pnt → inet.pton family addr = some a →
    LengthText maxBitlen pnt ∨ (∃ n ∈ atoi pnt, (maxBitlen : ℤ) < n % 2 ^ 8) ∧ p.put 0 a = p

variable {inet : Inet} {p q : Prefix} {str addr addr' pnt pnt' a : List UInt8} {f : UInt8} {n maxBitlen : ℕ}

theorem split_unique (haddr : ∀ c ∈ addr, c ≠ ch '/') (haddr' : ∀ c ∈ addr', c ≠ ch '/')
    (h : addr ++ ch '/' :: pnt = addr' ++ ch '/' :: pnt') : addr = addr' ∧ pnt = pnt' := by
  obtain ⟨htake, hdrop⟩ := span_slash haddr pnt
  obtain ⟨htake', hdrop'⟩ := span_slash haddr' pnt'
  rw [h] at htake hdrop
  exact ⟨htake.symm.trans htake', (List.cons.inj (hdrop.symm.trans hdrop')).2⟩

theorem LengthText.readLength (h : LengthText maxBitlen pnt) (hmax : maxBitlen ≤ 128) : readLength pnt = some (digitsValue pnt) := by
  have hle := h.le
  rw [Network.readLength, atoi_digits h.digits h.ne_nil (by omega), Option.map_some]
  congr 1
  omega

theorem Denotes.of_slash (hinet : inet.NoSlash) (haddr : ∀ c ∈ addr, c ≠ ch '/') (hd : Denotes inet f maxBitlen (addr ++ ch '/' :: pnt) a n) :
    inet.pton f addr = some a ∧ LengthText maxBitlen pnt ∧ n = digitsValue pnt := by
  generalize hstr : addr ++ ch '/' :: pnt = str at hd
  cases hd with
  | host hpton =>
    rw [← hstr] at hpton
    exact absurd rfl (hinet f _ a hpton (ch '/') (List.mem_append_right _ List.mem_cons_self))
  | length hpton hlength =>
    obtain ⟨rfl, rfl⟩ := split_unique haddr (hinet f _ a hpton) hstr
    exact ⟨hpton, hlength, rfl⟩

theorem reads_host (h : ∀ c ∈ str, c ≠ ch '/') :
    ∃ ret q, str2prefixIp inet f maxBitlen str p = some (ret, q) ∧ ReadsExactly inet f maxBitlen str p ret q := by
  have hdrop : str.dropWhile (· ≠ ch '/') = [] := List.dropWhile_eq_nil_iff.mpr fun c hc => decide_eq_true (h c hc)
  have hdenotes : ∀ a n, Denotes inet f maxBitlen str a n → inet.pton f str = some a ∧ n = maxBitlen := by
    rintro a n (hpton | ⟨hpton, hlength⟩)
    · exact ⟨hpton, rfl⟩
    · exact absurd rfl (h (ch '/') (List.mem_append_right _ List.mem_cons_self))
  rw [str2prefixIp, hdrop]
  dsimp only
  cases hpton : inet.pton f str with
  | none =>
    refine ⟨0, p, rfl, iff_of_false (by decide) ?_, fun a n hd => ?_, fun _ => ⟨rfl, rfl⟩⟩
    · rintro ⟨a, n, hd⟩
      cases hpton.symm.trans (hdenotes a n hd).1
    · cases hpton.symm.trans (hdenotes a n hd).1
  | some a =>
    refine ⟨1, _, rfl, iff_of_true rfl ⟨a, maxBitlen, .host hpton⟩, fun b n hd => ?_, fun h => absurd rfl h⟩
    obtain ⟨hb, rfl⟩ := hdenotes b n hd
    cases hpton.symm.trans hb
    rfl

theorem reads_length_iff (hinet : inet.NoSlash) (hmax : maxBitlen ≤ 128) (hpton : inet.pton f addr = some a) :
    (∃ ret q, str2prefixIp inet f maxBitlen (addr ++ ch '/' :: pnt) p = some (ret, q) ∧
      ReadsExactly inet f maxBitlen (addr ++ ch '/' :: pnt) p ret q) ↔
    LengthText maxBitlen pnt ∨ (∃ n ∈ atoi pnt, (maxBitlen : ℤ) < n % 2 ^ 8) ∧ p.put 0 a = p := by
  obtain ⟨htake, hdrop⟩ := span_slash (hinet f addr a hpton) pnt
  have hread : str2prefixIp inet f maxBitlen (addr ++ ch '/' :: pnt) p = (readLength pnt).bind fun plen =>
      if maxBitlen < plen then some (0, p.put 0 a)
      else some (1, { p.put 0 a with family := f, prefixlen := UInt16.ofNat plen }) := by
    simp only [str2prefixIp, hdrop, htake, hpton]
    rfl
  -- the text denotes a prefix exactly where a length follows
  have hdenotes : ∀ b n, Denotes inet f maxBitlen (addr ++ ch '/' :: pnt) b n → b = a ∧ LengthText maxBitlen pnt ∧ n = digitsValue pnt := by
    intro b n hd
    obtain ⟨hb, hlength, hn⟩ := hd.of_slash hinet (hinet f addr a hpton)
    exact ⟨Option.some.inj (hb.symm.trans hpton), hlength, hn⟩
  rw [hread]
  constructor
  · rintro ⟨ret, q, hret, h⟩
    obtain ⟨plen, hplen, hret⟩ := Option.bind_eq_some_iff.mp hret
    by_cases hlong : maxBitlen < plen
    · rw [if_pos hlong] at hret
      cases hret
      obtain ⟨n, hn, hmod⟩ := Option.map_eq_some_iff.mp hplen
      exact .inr ⟨⟨n, hn, by omega⟩, (h.fails (by decide)).2⟩
    · rw [if_neg hlong] at hret
      cases hret
      obtain ⟨b, n, hd⟩ := h.accepts.mp rfl
      exact .inl (hdenotes b n hd).2.1
  · rintro (hlength | ⟨⟨n, hn, hlong⟩, hsame⟩)
    · have hle := hlength.le
      rw [hlength.readLength hmax, Option.bind_some, if_neg (by omega)]
      refine ⟨1, _, rfl, iff_of_true rfl ⟨a, _, .length hpton hlength⟩, fun b n hd => ?_, fun h => absurd rfl h⟩
      obtain ⟨rfl, -, rfl⟩ := hdenotes b n hd
      rfl
    · have hplen : readLength pnt = some (n % 2 ^ 8).toNat := by rw [readLength, hn, Option.map_some]
      have hnone : ∀ b n, ¬Denotes inet f maxBitlen (addr ++ ch '/' :: pnt) b n := by
        intro b m hd
        have hlength := (hdenotes b m hd).2.1
        have hle := hlength.le
        rw [hlength.readLength hmax, Option.some_inj] at hplen
        omega
      rw [hplen, Option.bind_some, if_pos (by omega)]
      refine ⟨0, _, rfl, iff_of_false (by decide) ?_, fun b m hd => absurd hd (hnone b m), fun _ => ⟨rfl, hsame⟩⟩
      rintro ⟨b, m, hd⟩
      exact hnone b m hd

theorem reads_refused (hinet : inet.NoSlash) (haddr : ∀ c ∈ addr, c ≠ ch '/') (hpton : inet.pton f addr = none) :
    ∃ ret q, str2prefixIp inet f maxBitlen (addr ++ ch '/' :: pnt) p = some (ret, q) ∧
      ReadsExactly inet f maxBitlen (addr ++ ch '/' :: pnt) p ret q := by
  have hnone : ∀ b n, ¬Denotes inet f maxBitlen (addr ++ ch '/' :: pnt) b n := by
    intro b n hd
    cases hpton.symm.trans (hd.of_slash hinet haddr).1
  refine ⟨0, p, str2prefixIp_none haddr hpton pnt, iff_of_false (by decide) ?_, fun b n hd => absurd hd (hnone b n), fun _ => ⟨rfl, rfl⟩⟩
  rintro ⟨b, n, hd⟩
  exact hnone b n hd

theorem reads_iff (hinet : inet.NoSlash) (hmax : maxBitlen ≤ 128) (str : List UInt8) (p : Prefix) :
    (∃ ret q, str2prefixIp inet f maxBitlen str p = some (ret, q) ∧ ReadsExactly inet f maxBitlen str p ret q) ↔
      LengthSeen inet f maxBitlen str p := by
  by_cases hslash : ch '/' ∈ str
  · obtain ⟨addr, pnt, rfl, hnot⟩ := List.eq_append_cons_of_mem hslash
    have haddr : ∀ c ∈ addr, c ≠ ch '/' := fun c hc heq => hnot (heq ▸ hc)
    have hsplit {addr' pnt' a : List UInt8} (hstr : addr ++ ch '/' :: pnt = addr' ++ ch '/' :: pnt')
        (hpton : inet.pton f addr' = some a) : addr = addr' ∧ pnt = pnt' := split_unique haddr (hinet f addr' a hpton) hstr
    cases hpton : inet.pton f addr with
    | none =>
      refine iff_of_true (reads_refused hinet haddr hpton) fun addr' pnt' a hstr ha => ?_
      obtain ⟨rfl, rfl⟩ := hsplit hstr ha
      cases hpton.symm.trans ha
    | some a =>
      rw [reads_length_iff hinet hmax hpton]
      constructor
      · intro h addr' pnt' b hstr hb
        obtain ⟨rfl, rfl⟩ := hsplit hstr hb
        cases hpton.symm.trans hb
        exact h
      · exact fun h => h addr pnt a rfl hpton
  · refine iff_of_true (reads_host fun c hc heq => hslash (heq ▸ hc)) fun addr pnt a hstr _ => ?_
    exact absurd (hstr ▸ List.mem_append_right addr List.mem_cons_self) hslash

/-- The readers are exact where the text has no slash, or no address before it, or where what follows the address is a length. -/
theorem str2prefix_reads_iff (hinet : inet.NoSlash) (str : List UInt8) (p : Prefix) :
    ((∃ ret q, str2prefixIpv4 inet str p = some (ret, q) ∧ ReadsExactly inet afInet 32 str p ret q) ↔ LengthSeen inet afInet 32 str p) ∧
    ((∃ ret q, str2prefixIpv6 inet str p = some (ret, q) ∧ ReadsExactly inet afInet6 128 str p ret q) ↔
      LengthSeen inet afInet6 128 str p) :=
  ⟨reads_iff hinet (by decide) str p, reads_iff hinet (by decide) str p⟩

/-- The functions of the system, on the text of one address. -/
def tenInet : Inet where
  ntop _ _ := text "10.0.0.0"
  pton f s := if f = afInet ∧ s = text "10.0.0.0" then some [10, 0, 0, 0] else none

theorem ten_noSlash : ∀ c ∈ text "10.0.0.0", c ≠ ch '/' := by
  have hall : (text "10.0.0.0").all (· ≠ ch '/') = true := rfl
  simpa using hall

theorem tenInet_noSlash : tenInet.NoSlash := by
  intro f s a h
  change (if f = afInet ∧ s = text "10.0.0.0" then some [10, 0, 0, 0] else none) = some a at h
  split_ifs at h with hs
  rw [hs.2]
  exact ten_noSlash

theorem str2prefix_reads_iff_sample :
    ∃ ret q, str2prefixIpv4 tenInet (text "10.0.0.0/8") zeroPrefix = some (ret, q) ∧
      ReadsExactly tenInet afInet 32 (text "10.0.0.0/8") zeroPrefix ret q := by
  refine (str2prefix_reads_iff tenInet_noSlash (text "10.0.0.0/8") zeroPrefix).1.mpr fun addr pnt a hstr hpton => ?_
  obtain ⟨rfl, rfl⟩ := split_unique ten_noSlash (tenInet_noSlash afInet addr a hpton)
    (show text "10.0.0.0" ++ ch '/' :: text "8" = addr ++ ch '/' :: pnt from hstr)
  exact .inl ⟨by decide, by decide +kernel, by decide⟩

/-- A length of 264 is taken for 8, and one of 33 is refused when the address has been stored. -/
theorem str2prefix_misreads :
    tenInet.NoSlash ∧
    (∃ q, str2prefixIpv4 tenInet (text "10.0.0.0/264") zeroPrefix = some (1, q) ∧ q.prefixlen = 8 ∧
      ¬ReadsExactly tenInet afInet 32 (text "10.0.0.0/264") zeroPrefix 1 q) ∧
    ∃ q, str2prefixIpv4 tenInet (text "10.0.0.0/33") zeroPrefix = some (0, q) ∧ q ≠ zeroPrefix := by
  refine ⟨tenInet_noSlash, ⟨_, rfl, by decide +kernel, fun h => ?_⟩, ⟨_, rfl, by decide +kernel⟩⟩
  obtain ⟨a, n, hd⟩ := h.accepts.mp rfl
  have hlength := (@Denotes.of_slash tenInet (text "10.0.0.0") (text "264") a afInet n 32 tenInet_noSlash ten_noSlash hd).2.1
  exact absurd hlength.le (by decide)

end Yjc.Network
