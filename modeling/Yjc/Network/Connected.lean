import Yjc.Lib.RunningMax
import Yjc.Network.Interface
import Yjc.Network.PrefixBits

/-! The connected addresses of the interfaces, and their lookup by an address, in `network/if.c`. -/

namespace Yjc.Network
open BitPrefix RunningMax

/-- `ZEBRA_IFA_PEER` -/
def zebraIfaPeer : UInt8 := 2

/-- `struct connected`, with its prefixes or `NULL`. -/
structure Connected where
  flags : UInt8
  address : Option Prefix
  destination : Option Prefix
deriving DecidableEq

def Connected.connectedPeer (c : Connected) : Bool := c.flags &&& zebraIfaPeer ≠ 0

/-- `CONNECTED_PREFIX` -/
def Connected.connectedPrefix (c : Connected) : Option Prefix := if c.connectedPeer then c.destination else c.address

/-- `c->address->prefixlen` -/
def Connected.prefixlen (c : Connected) : ℕ := c.address.elim 0 fun p => p.prefixlen.toNat

/-- `c->address && c->address->family == family && prefix_match(CONNECTED_PREFIX(c), addr)`; `none` is an access to `NULL` or outside of a
prefix, here and below. -/
def Connected.covers (c : Connected) (family : UInt8) (addr : Prefix) : Option Bool :=
  match c.address with
  | none => some false
  | some address =>
    if address.family ≠ family then some false
    else c.connectedPrefix.bind fun n => (prefixMatch n addr).map fun r => r ≠ 0

/-- The prefix on the stack, for the address that `matchaddr` points to; `none` where the assertion fails. -/
def matchPrefix (stack : Prefix) (matchaddr : ℕ → UInt8) (family : UInt8) : Option Prefix :=
  if family = afInet then some { stack.put 0 ((List.range 4).map matchaddr) with family := afInet, prefixlen := 32 }
  else if family = afInet6 then some { stack.put 0 ((List.range 16).map matchaddr) with family := afInet6, prefixlen := 128 }
  else none

/-- One round of the loops of `if_lookup_address`, with `bestlen` and `match`. -/
def lookupRound (addr : Prefix) (s : ℕ × Option Connected) (c : Connected) : Option (ℕ × Option Connected) :=
  (c.covers afInet addr).map fun covers => if covers = true ∧ s.1 < c.prefixlen then (c.prefixlen, some c) else s

/-- The order of `if_cmp_func`. The names have 15 characters at most, for which the rounds are enough. -/
def ifNameLe (s t : List UInt8) : Bool := (Loop.run ifCmpRound 16 (s, t)).all fun r => r ≤ 0

/-- `FOR_ALL_INTERFACES` for the VRF with the identifier -/
def Ifaces.forAllInterfaces (s : Ifaces) (vrfId : ℕ) : Option (List ℕ) :=
  match s.vrfs.vrfLookupById vrfId with
  | none => some []
  | some v => (s.vrfs.vrf v).map fun vrf => vrf.ifacesByName.elements ifNameLe

section Lookup
variable (s : Ifaces) (connected : ℕ → List Connected) (stack : Prefix) (matchaddr : ℕ → UInt8) (family : UInt8)

/-- `if_lookup_address`, where `connected` is the lists of the interfaces, and `stack` what `addr` is before it is set. -/
def ifLookupAddress (vrfId : ℕ) : Option (Option Connected) := do
  let addr ← matchPrefix stack matchaddr family
  let ifaces ← s.forAllInterfaces vrfId
  let found ← ifaces.foldlM (fun s i => (connected i).foldlM (lookupRound addr) s) (0, none)
  return found.2

end Lookup

def connectedLookupPrefix (connected : List Connected) (addr : Prefix) : Option (Option Connected) :=
  connected.foldlM (fun found c => (c.covers addr.family addr).map fun covers =>
    if covers = true ∧ ∀ m ∈ found, m.prefixlen < c.prefixlen then some c else found) none

/-- The first of the longest that `connected_lookup_prefix` finds in the lists of the interfaces. -/
def bestOfInterfaces (connected : ℕ → List Connected) (ifaces : List ℕ) (addr : Prefix) : Option (Option Connected) :=
  (ifaces.mapM fun i => connectedLookupPrefix (connected i) addr).map fun found => (found.filterMap id).argmax Connected.prefixlen

/-- The prefix of the entry is of the family and has the first bits of the address `a`, which is `len` bits long. -/
def Matches (family : UInt8) (len : ℕ) (a : ℕ → UInt8) (c : Connected) : Prop :=
  ∃ p ∈ c.address, p.family = family ∧ p.prefixlen.toNat ≤ len ∧ Agree p.prefixlen.toNat p.byte a

instance (k : ℕ) (s t : ℕ → UInt8) : Decidable (Agree k s t) := inferInstanceAs (Decidable (∀ i < k, _ = _))

instance (family : UInt8) (len : ℕ) (a : ℕ → UInt8) : DecidablePred (Matches family len a) :=
  fun c => inferInstanceAs (Decidable (∃ p ∈ c.address, _ ∧ _ ∧ _))

/-- No entry contains the address, or the result is one of the longest that do. -/
structure FindsLongest (entries : List Connected) (family : UInt8) (len : ℕ) (a : ℕ → UInt8) (r : Option Connected) : Prop where
  null : r = none ↔ ∀ c ∈ entries, ¬Matches family len a c
  longest : ∀ c ∈ r, c ∈ entries ∧ Matches family len a c ∧ ∀ d ∈ entries, Matches family len a d → d.prefixlen ≤ c.prefixlen

/-- `if_lookup_address` finds the longest entry of the interfaces, which is the best of `connected_lookup_prefix`. -/
def LooksUp (s : Ifaces) (connected : ℕ → List Connected) (stack : Prefix) (a : ℕ → UInt8) (family : UInt8) (vrfId : ℕ) (ifaces : List ℕ) : Prop :=
  ∃ addr r, matchPrefix stack a family = some addr ∧ ifLookupAddress s connected stack a family vrfId = some r ∧
    FindsLongest (ifaces.flatMap connected) family addr.prefixlen.toNat a r ∧ bestOfInterfaces connected ifaces addr = some r

variable {s : Ifaces} {connected : ℕ → List Connected} {stack addr : Prefix} {a : ℕ → UInt8} {family : UInt8} {len vrfId : ℕ} {c : Connected}
  {cs : List Connected} {ifaces : List ℕ}

/-- The prefix `addr` is the address `a` with the length `len`. -/
structure HostPrefix (addr : Prefix) (len : ℕ) (a : ℕ → UInt8) : Prop where
  len_eq : addr.prefixlen.toNat = len
  le : len ≤ 384
  agree : Agree len addr.byte a

theorem hostPrefix_put {n : ℕ} (hn : n ≤ 16) (hlen : (UInt16.ofNat (8 * n)).toNat = 8 * n) :
    HostPrefix { stack.put 0 ((List.range n).map a) with family, prefixlen := UInt16.ofNat (8 * n) } (8 * n) a := by
  refine ⟨hlen, by omega, agree_bytes.mpr fun i hi => ?_⟩
  have hbyte : (stack.put 0 ((List.range n).map a)).byte i = a i := by
    rw [Prefix.byte_put (by rw [List.length_map, List.length_range]; omega), List.length_map, List.length_range, if_pos (by omega)]
    simp [hi]
  exact hbyte

theorem covers_eq (haddr : HostPrefix addr len a) (hf : family ≠ afFlowspec) (hc : c.connectedPeer = false) :
    c.covers family addr = some (decide (Matches family len a c)) := by
  rw [Connected.covers, Connected.connectedPrefix, hc]
  cases hp : c.address with
  | none => simp [Matches, hp]
  | some p =>
    have hmatch : Matches family len a c ↔ p.family = family ∧ p.prefixlen.toNat ≤ len ∧ Agree p.prefixlen.toNat p.byte a := by
      simp [Matches, hp]
    dsimp only
    by_cases hfamily : p.family = family
    · rw [if_neg (not_not_intro hfamily), if_neg Bool.false_ne_true, Option.bind_some]
      by_cases hle : p.prefixlen.toNat ≤ len
      · have hagree : Agree p.prefixlen.toNat p.byte addr.byte ↔ Agree p.prefixlen.toNat p.byte a :=
          ⟨fun h => h.trans (haddr.agree.mono hle), fun h => h.trans (haddr.agree.mono hle).symm⟩
        have hlenle : p.prefixlen ≤ addr.prefixlen := UInt16.le_iff_toNat_le.mpr (by rw [haddr.len_eq]; exact hle)
        have hmax := haddr.le
        rw [prefixMatch_eq (by rw [hfamily]; exact hf) (by omega), Option.map_some]
        simp only [hmatch, hfamily, hle, hlenle, hagree, true_and]
        split_ifs with h <;> simp [h]
      · have hlong : addr.prefixlen < p.prefixlen := UInt16.lt_iff_toNat_lt.mpr (by rw [haddr.len_eq]; omega)
        rw [prefixMatch, if_pos hlong, Option.map_some]
        simp [hmatch, hle]
    · rw [if_pos hfamily]
      simp [hmatch, hfamily]

theorem connectedLookupPrefix_eq (haddr : HostPrefix addr len a) (hf : addr.family ≠ afFlowspec) (hcs : ∀ c ∈ cs, c.connectedPeer = false) :
    connectedLookupPrefix cs addr = some ((cs.filter fun c => Matches addr.family len a c).argmax Connected.prefixlen) := by
  have hround : ∀ found, ∀ c ∈ cs, ((c.covers addr.family addr).map fun covers =>
      if covers = true ∧ ∀ m ∈ found, m.prefixlen < c.prefixlen then some c else found) =
      some (pick Connected.prefixlen (Matches addr.family len a) found c) := by
    intro found c hc
    rw [covers_eq haddr hf (hcs c hc), Option.map_some, pick]
    simp only [decide_eq_true_eq]
  rw [connectedLookupPrefix, foldlM_eq_some hround, foldl_pick]
  rfl

theorem bestOfInterfaces_eq (haddr : HostPrefix addr len a) (hf : addr.family ≠ afFlowspec)
    (hcs : ∀ i ∈ ifaces, ∀ c ∈ connected i, c.connectedPeer = false) :
    bestOfInterfaces connected ifaces addr =
      some (((ifaces.flatMap connected).filter fun c => Matches addr.family len a c).argmax Connected.prefixlen) := by
  rw [bestOfInterfaces, mapM_eq_some fun i hi => connectedLookupPrefix_eq haddr hf (hcs i hi), Option.map_some, List.filterMap_map,
    List.filter_flatMap, argmax_flatMap]
  rfl

theorem foldl_lookupRound (p : Connected → Prop) [DecidablePred p] (found : Option Connected) :
    cs.foldl (fun (s : ℕ × Option Connected) c => if p c ∧ s.1 < c.prefixlen then (c.prefixlen, some c) else s)
      (found.elim 0 Connected.prefixlen, found) =
    ((cs.foldl (pick Connected.prefixlen fun c => p c ∧ 0 < c.prefixlen) found).elim 0 Connected.prefixlen,
      cs.foldl (pick Connected.prefixlen fun c => p c ∧ 0 < c.prefixlen) found) := by
  -- entries of length 0 are never taken, since `bestlen` begins there
  induction cs generalizing found with
  | nil => rfl
  | cons c cs ih =>
    -- `bestlen` is the length of `match`, and 0 before there is one
    have hstep : (if p c ∧ found.elim 0 Connected.prefixlen < c.prefixlen then (c.prefixlen, some c)
        else (found.elim 0 Connected.prefixlen, found)) =
        ((pick Connected.prefixlen (fun c => p c ∧ 0 < c.prefixlen) found c).elim 0 Connected.prefixlen,
          pick Connected.prefixlen (fun c => p c ∧ 0 < c.prefixlen) found c) := by
      have hcond : ((p c ∧ 0 < c.prefixlen) ∧ ∀ m ∈ found, m.prefixlen < c.prefixlen) ↔ p c ∧ found.elim 0 Connected.prefixlen < c.prefixlen := by
        cases found with
        | none => simp
        | some m =>
          simp only [Option.mem_some_iff, forall_eq', Option.elim_some]
          exact ⟨fun h => ⟨h.1.1, h.2⟩, fun h => ⟨⟨h.1, by omega⟩, h.2⟩⟩
      unfold pick
      simp only [hcond]
      split_ifs <;> rfl
    rw [List.foldl_cons, List.foldl_cons, hstep]
    exact ih _

theorem ifLookupAddress_eq (hfamily : matchPrefix stack a family = some addr) (haddr : HostPrefix addr len a)
    (hifaces : s.forAllInterfaces vrfId = some ifaces) (hcs : ∀ i ∈ ifaces, ∀ c ∈ connected i, c.connectedPeer = false) :
    ifLookupAddress s connected stack a family vrfId =
      some ((((ifaces.flatMap connected).filter fun c => Matches afInet len a c).argmax Connected.prefixlen).filter
        fun c => 0 < c.prefixlen) := by
  have hrounds : ∀ st, ∀ i ∈ ifaces, (connected i).foldlM (lookupRound addr) st = some ((connected i).foldl
      (fun st c => if Matches afInet len a c ∧ st.1 < c.prefixlen then (c.prefixlen, some c) else st) st) := by
    refine fun st i hi => foldlM_eq_some (fun st c hc => ?_) st
    rw [lookupRound, covers_eq haddr (by decide) (hcs i hi c hc), Option.map_some]
    simp only [decide_eq_true_eq]
  rw [ifLookupAddress, hfamily, hifaces]
  change ((ifaces.foldlM (fun st i => (connected i).foldlM (lookupRound addr) st) (0, none)).bind fun found => some found.2) = _
  rw [← argmax_filter_pos, foldlM_eq_some hrounds, Option.bind_some, ← List.foldl_flatMap]
  have hfold := @foldl_lookupRound (ifaces.flatMap connected) (Matches afInet len a) _ none
  rw [Option.elim_none] at hfold
  have hfilter : ((ifaces.flatMap connected).filter fun c => Matches afInet len a c ∧ 0 < c.prefixlen) =
      ((ifaces.flatMap connected).filter fun c => Matches afInet len a c).filter fun c => 0 < c.prefixlen := by
    rw [List.filter_filter]
    exact List.filter_congr fun c _ => by rw [← Bool.decide_and, decide_eq_decide, and_comm]
  rw [hfold, foldl_pick, hfilter]
  rfl

theorem findsLongest_argmax (cs : List Connected) :
    FindsLongest cs family len a ((cs.filter fun c => Matches family len a c).argmax Connected.prefixlen) := by
  refine ⟨?_, fun c hc => ?_⟩
  · rw [List.argmax_eq_none, List.filter_eq_nil_iff]
    simp only [decide_eq_true_eq]
  · obtain ⟨hmem, hmatch⟩ := List.mem_filter.mp (List.argmax_mem hc)
    exact ⟨hmem, of_decide_eq_true hmatch, fun d hd hdm => List.le_of_mem_argmax (List.mem_filter.mpr ⟨hd, decide_eq_true hdm⟩) hc⟩

def longest (family : UInt8) (len : ℕ) (a : ℕ → UInt8) (cs : List Connected) : Option Connected :=
  (cs.filter fun c => Matches family len a c).argmax Connected.prefixlen

/-- The lookup of an address of `n` bytes is right when the longest entry of its family is the longest IPv4 entry, and not of length 0. -/
theorem looksUp_iff {n : ℕ} (hf : family ≠ afFlowspec) (hn : n ≤ 16) (hlen : (UInt16.ofNat (8 * n)).toNat = 8 * n)
    (hmatch : matchPrefix stack a family = some { stack.put 0 ((List.range n).map a) with family, prefixlen := UInt16.ofNat (8 * n) })
    (hifaces : s.forAllInterfaces vrfId = some ifaces) (hcs : ∀ i ∈ ifaces, ∀ c ∈ connected i, c.connectedPeer = false) :
    LooksUp s connected stack a family vrfId ifaces ↔ longest family (8 * n) a (ifaces.flatMap connected) =
      (longest afInet (8 * n) a (ifaces.flatMap connected)).filter fun c => 0 < c.prefixlen := by
  have haddr := @hostPrefix_put stack a family n hn hlen
  have hfound := ifLookupAddress_eq hmatch haddr hifaces hcs
  have hbest := bestOfInterfaces_eq haddr hf hcs
  rw [LooksUp, hmatch, hfound]
  constructor
  · rintro ⟨addr, r, haddr', hr, -, hr'⟩
    cases haddr'
    cases hr
    exact Option.some.inj (hbest.symm.trans hr')
  · intro hsame
    refine ⟨_, _, rfl, rfl, ?_, hbest.trans (congrArg some hsame)⟩
    rw [haddr.len_eq]
    exact hsame ▸ findsLongest_argmax (ifaces.flatMap connected)

theorem longest_inet_iff (cs : List Connected) :
    (longest afInet len a cs = (longest afInet len a cs).filter fun c => 0 < c.prefixlen) ↔
      ∀ c ∈ cs, Matches afInet len a c → ∃ d ∈ cs, Matches afInet len a d ∧ 0 < d.prefixlen := by
  -- entries of length 0 are missed where there are no others
  have hbest : FindsLongest cs afInet len a (longest afInet len a cs) := findsLongest_argmax cs
  cases hr : longest afInet len a cs with
  | none => exact iff_of_true rfl fun c hc hmatch => absurd hmatch (hbest.null.mp hr c hc)
  | some d =>
    obtain ⟨hd, hdm, hmax⟩ := hbest.longest d hr
    rw [Option.filter_some]
    by_cases hpos : 0 < d.prefixlen
    · rw [if_pos (decide_eq_true hpos)]
      exact iff_of_true rfl fun c hc hmatch => ⟨d, hd, hdm, hpos⟩
    · rw [if_neg (by simpa using hpos)]
      refine iff_of_false (by simp) fun h => ?_
      obtain ⟨e, he, hem, hpos'⟩ := h d hd hdm
      exact hpos (hpos'.trans_le (hmax e he hem))

theorem longest_inet6_iff (cs : List Connected) :
    (longest afInet6 len a cs = (longest afInet len a cs).filter fun c => 0 < c.prefixlen) ↔
      ∀ c ∈ cs, ¬Matches afInet6 len a c ∧ (Matches afInet len a c → c.prefixlen = 0) := by
  have hbest : FindsLongest cs afInet len a (longest afInet len a cs) := findsLongest_argmax cs
  have hbest6 : FindsLongest cs afInet6 len a (longest afInet6 len a cs) := findsLongest_argmax cs
  constructor
  · intro hsame
    have hnone : longest afInet6 len a cs = none := by
      by_contra hfound
      obtain ⟨d, hd⟩ := Option.ne_none_iff_exists'.mp hfound
      -- the entry would be of both families
      obtain ⟨-, ⟨p, hp, hfamily, -⟩, -⟩ := hbest6.longest d hd
      obtain ⟨-, ⟨q, hq, hother, -⟩, -⟩ := hbest.longest d (Option.filter_eq_some_iff.mp (hsame.symm.trans hd)).1
      cases Option.some.inj (hp.symm.trans hq)
      exact absurd (hfamily.symm.trans hother) (by decide)
    refine fun c hc => ⟨hbest6.null.mp hnone c hc, fun hmatch => ?_⟩
    cases hr : longest afInet len a cs with
    | none => exact absurd hmatch (hbest.null.mp hr c hc)
    | some d =>
      have hle := (hbest.longest d hr).2.2 c hc hmatch
      have hzero := Option.filter_eq_none_iff.mp (hsame.symm.trans hnone) d hr
      rw [decide_eq_true_eq] at hzero
      omega
  · intro h
    have hnone : ((longest afInet len a cs).filter fun c => 0 < c.prefixlen) = none := by
      refine Option.filter_eq_none_iff.mpr fun c hc => ?_
      obtain ⟨hmem, hmatch, -⟩ := hbest.longest c hc
      rw [decide_eq_true_eq, (h c hmem).2 hmatch]
      exact Nat.lt_irrefl 0
    rw [hnone]
    exact hbest6.null.mpr fun c hc => (h c hc).1

/-- IPv4 addresses are looked up as they should be exactly where a longer entry contains them if one of length 0 does; IPv6 addresses
exactly where no IPv6 entry contains them and no IPv4 entry has their first bits, but for those of length 0. -/
theorem ifLookupAddress_longest_iff (hifaces : s.forAllInterfaces vrfId = some ifaces)
    (hpeer : ∀ i ∈ ifaces, ∀ c ∈ connected i, c.connectedPeer = false) :
    (LooksUp s connected stack a afInet vrfId ifaces ↔ ∀ c ∈ ifaces.flatMap connected, Matches afInet 32 a c →
      ∃ d ∈ ifaces.flatMap connected, Matches afInet 32 a d ∧ 0 < d.prefixlen) ∧
    (LooksUp s connected stack a afInet6 vrfId ifaces ↔ ∀ c ∈ ifaces.flatMap connected, ¬Matches afInet6 128 a c ∧
      (Matches afInet 128 a c → c.prefixlen = 0)) := by
  constructor
  · have h := @looksUp_iff s connected stack a afInet vrfId ifaces 4 (by decide) (by decide) (by decide) rfl hifaces hpeer
    exact h.trans (longest_inet_iff (ifaces.flatMap connected))
  · have h := @looksUp_iff s connected stack a afInet6 vrfId ifaces 16 (by decide) (by decide) (by decide) rfl hifaces hpeer
    exact h.trans (longest_inet6_iff (ifaces.flatMap connected))

/-- An interface in the first of the two VRFs. -/
def oneIface : Ifaces := ((twoVrfs.create 0 [101] 0).map Prod.fst).getD twoVrfs

/-- The entry `bytes/len`. -/
def entry (family : UInt8) (bytes : List UInt8) (len : UInt16) : Connected :=
  ⟨0, some { zeroPrefix.put 0 bytes with family, prefixlen := len }, none⟩

theorem not_looksUp (haddr : matchPrefix stack a family = some addr) (hnone : ifLookupAddress s connected stack a family vrfId = some none)
    (hc : c ∈ ifaces.flatMap connected) (hmatch : Matches family addr.prefixlen.toNat a c) :
    ¬LooksUp s connected stack a family vrfId ifaces := by
  rintro ⟨addr', r, haddr', hr, hfinds, -⟩
  cases haddr.symm.trans haddr'
  cases hnone.symm.trans hr
  exact hfinds.null.mp rfl c hc hmatch

theorem ifLookupAddress_longest_sample :
    LooksUp oneIface (fun _ => [entry afInet [10] 8, entry afInet [10, 1] 16, entry afInet [] 0]) zeroPrefix
      (fun i => [10, 1, 2, 3].getD i 0) afInet 1 [0] :=
  (ifLookupAddress_longest_iff (by decide +kernel) (by decide +kernel)).1.mpr (by decide +kernel)

/-- An IPv4 entry of length 0 is not found, nor is an IPv6 entry; for an IPv6 address an IPv4 entry is. -/
theorem ifLookupAddress_misses :
    ¬LooksUp oneIface (fun _ => [entry afInet [] 0]) zeroPrefix (fun i => [10, 1, 2, 3].getD i 0) afInet 1 [0] ∧
      ¬LooksUp oneIface (fun _ => [entry afInet6 [254, 128] 10]) zeroPrefix (fun i => [254, 128].getD i 0) afInet6 1 [0] ∧
      ifLookupAddress oneIface (fun _ => [entry afInet [254] 8]) zeroPrefix (fun i => [254, 128].getD i 0) afInet6 1 =
        some (some (entry afInet [254] 8)) := by
  refine ⟨not_looksUp rfl (by decide +kernel) (c := entry afInet [] 0) (by decide) (by decide +kernel),
    not_looksUp rfl (by decide +kernel) (c := entry afInet6 [254, 128] 10) (by decide) (by decide +kernel), by decide +kernel⟩

end Yjc.Network
