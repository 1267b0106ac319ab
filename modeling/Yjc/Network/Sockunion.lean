import Yjc.Network.Prefix

/-! Addresses in socket addresses, in `network/sockunion.c`. -/

namespace Yjc.Network
open Mem

/-- `union sockunion`, of which `sockaddr_un` is the largest member. -/
structure Sockunion where
  bytes : List UInt8
  length_bytes : bytes.length = 112
deriving DecidableEq

namespace Sockunion

/-- `sockunion_family` -/
def saFamily (su : Sockunion) : ℕ := LittleEndian.value (slice su.bytes 0 2)

/-- The bytes `bs` written from offset `i` on. -/
def store (su : Sockunion) (i : ℕ) (bs : List UInt8) (h : i + bs.length ≤ 112) : Sockunion :=
  ⟨Mem.store su.bytes i bs, by rw [length_store (by rw [su.length_bytes]; exact h), su.length_bytes]⟩

def setFamily (su : Sockunion) (family : ℤ) : Sockunion := su.store 0 (LittleEndian.bytes 2 (family % 2 ^ 16).toNat) (by
  rw [LittleEndian.length_bytes]
  decide)

/-- `memcpy` to offset `i`, with the offsets that it writes; `none` for an access outside of `addr` or of the union. -/
def memcpy (su : Sockunion) (i : ℕ) (addr : List UInt8) (bytes : ℕ) : Option (Sockunion × List ℕ) :=
  if h : bytes ≤ addr.length ∧ i + bytes ≤ 112 then
    some (su.store i (addr.take bytes) (by rw [List.length_take, Nat.min_eq_left h.1]; exact h.2), (List.range bytes).map (i + ·))
  else none

end Sockunion

def family2addrsize (family : ℤ) : ℕ := if family = afInet.toNat then 16 else if family = afInet6.toNat then 28 else 0

/-- The offset of the address, or `NULL`. -/
def sockunionGetAddr (su : Sockunion) : Option ℕ :=
  if su.saFamily = afInet.toNat then some 4 else if su.saFamily = afInet6.toNat then some 8 else none

/-- The union after `sockunion_set`, with the offsets that were written. -/
def sockunionSet (su : Sockunion) (family : ℤ) (addr : List UInt8) (bytes : ℕ) : Option (Sockunion × List ℕ) :=
  if family2addrsize family ≠ bytes then some (su, [])
  else
    let su := su.setFamily family
    let copied :=
      if family = afInet.toNat then su.memcpy 4 addr bytes
      else if family = afInet6.toNat then su.memcpy 8 addr bytes
      else some (su, [])
    copied.map fun (su, written) => (su, 0 :: 1 :: written)

/-- The union has the family, and the first `size` bytes of `addr` at offset `off`. -/
structure HasAddr (su : Sockunion) (family : ℤ) (off size : ℕ) (addr : List UInt8) : Prop where
  family : (su.saFamily : ℤ) = family
  addr : slice su.bytes off (off + size) = addr.take size

/-- With the size of the address, the family and the address are set, and nothing else; with any size nothing is written but the family and
the `size` bytes of the address. -/
structure StoresAddr (su : Sockunion) (family : ℤ) (off size : ℕ) (addr : List UInt8) (bytes : ℕ) : Prop where
  stores : bytes = size → ∃ t w, sockunionSet su family addr bytes = some (t, w) ∧ HasAddr t family off size addr ∧
    sockunionGetAddr t = some off ∧ ∀ i, 2 ≤ i → ¬(off ≤ i ∧ i < off + size) → t.bytes[i]? = su.bytes[i]?
  reads : bytes = size → ∀ addr', addr'.take bytes = addr.take bytes → sockunionSet su family addr' bytes = sockunionSet su family addr bytes
  within : ∃ t w, sockunionSet su family addr bytes = some (t, w) ∧ ∀ i ∈ w, i < 2 ∨ off ≤ i ∧ i < off + size

variable {su t : Sockunion} {family : ℤ} {off size len bytes : ℕ} {addr : List UInt8} {w : List ℕ}

theorem sockunionSet_refused (h : family2addrsize family ≠ bytes) (addr : List UInt8) : sockunionSet su family addr bytes = some (su, []) :=
  if_pos h

theorem memcpy_written (h : su.memcpy off addr bytes = some (t, w)) : w = (List.range bytes).map (off + ·) := by
  rw [Sockunion.memcpy] at h
  split_ifs at h
  exact (Prod.mk.inj (Option.some.inj h)).2.symm

theorem sockunionSet_past (hset : sockunionSet su family addr len = (((su.setFamily family).memcpy off addr len).map
    fun (su, written) => (su, 0 :: 1 :: written))) (hlt : size < len) (h2 : 2 ≤ off) (h : sockunionSet su family addr len = some (t, w)) :
    ∃ i ∈ w, ¬(i < 2 ∨ off ≤ i ∧ i < off + size) := by
  rw [hset] at h
  obtain ⟨⟨t', w'⟩, hcopy, heq⟩ := Option.map_eq_some_iff.mp h
  cases heq
  refine ⟨off + size, List.mem_cons_of_mem _ (List.mem_cons_of_mem _ ?_), by omega⟩
  rw [memcpy_written hcopy]
  exact List.mem_map.mpr ⟨size, List.mem_range.mpr hlt, rfl⟩

theorem storesAddr_iff (hlen : family2addrsize family = len) (hset : sockunionSet su family addr len =
    (((su.setFamily family).memcpy off addr len).map fun (su, written) => (su, 0 :: 1 :: written)))
    (hget : ∀ su : Sockunion, (su.saFamily : ℤ) = family → sockunionGetAddr su = some off) (hlt : size < len) (h2 : 2 ≤ off) :
    StoresAddr su family off size addr bytes ↔ (bytes = size → HasAddr su family off size addr) ∧ bytes ≠ len := by
  constructor
  · intro h
    have hne : bytes ≠ len := by
      rintro rfl
      obtain ⟨t, w, hret, hwithin⟩ := h.within
      obtain ⟨i, hi, hout⟩ := sockunionSet_past hset hlt h2 hret
      exact hout (hwithin i hi)
    -- and then the call is refused, so that what it leaves is what was there
    refine ⟨fun hsize => ?_, hne⟩
    obtain ⟨t, w, hret, hhas, -⟩ := h.stores hsize
    rw [sockunionSet_refused (by rw [hlen]; exact hne.symm)] at hret
    cases hret
    exact hhas
  · rintro ⟨hhas, hne⟩
    have hrefused := @sockunionSet_refused su family bytes (by rw [hlen]; exact hne.symm)
    refine ⟨fun hsize => ⟨su, [], hrefused addr, hhas hsize, hget su (hhas hsize).family, fun _ _ _ => rfl⟩, fun _ addr' _ => ?_,
      su, [], hrefused addr, fun i hi => by cases hi⟩
    rw [hrefused, hrefused]

/-- An address is stored as it should be exactly where it is in the union already, and not with the size of a socket address. -/
theorem sockunionSet_stores_iff (su : Sockunion) (addr : List UInt8) (bytes : ℕ) :
    (StoresAddr su afInet.toNat 4 4 addr bytes ↔ (bytes = 4 → HasAddr su afInet.toNat 4 4 addr) ∧ bytes ≠ 16) ∧
    (StoresAddr su afInet6.toNat 8 16 addr bytes ↔ (bytes = 16 → HasAddr su afInet6.toNat 8 16 addr) ∧ bytes ≠ 28) := by
  constructor
  · refine storesAddr_iff rfl rfl (fun su hsu => ?_) (by decide) (by decide)
    rw [sockunionGetAddr, if_pos (Int.ofNat_inj.mp hsu)]
  · refine storesAddr_iff rfl rfl (fun su hsu => ?_) (by decide) (by decide)
    rw [sockunionGetAddr, Int.ofNat_inj.mp hsu, if_neg (by decide), if_pos rfl]

/-- The address of IPv4 with its 4 bytes is not stored, and with 16 bytes the call writes past it. -/
theorem sockunionSet_misses :
    ¬StoresAddr ⟨List.replicate 112 0, by decide⟩ afInet.toNat 4 4 [10, 0, 0, 1] 4 ∧
      ¬StoresAddr ⟨List.replicate 112 0, by decide⟩ afInet.toNat 4 4 (10 :: List.replicate 15 1) 16 ∧
      (sockunionSet ⟨List.replicate 112 0, by decide⟩ afInet.toNat (10 :: List.replicate 15 1) 16).map Prod.snd =
        some (0 :: 1 :: (List.range 16).map (4 + ·)) := by
  refine ⟨fun h => ?_, fun h => ?_, by decide +kernel⟩
  · obtain ⟨t, w, hret, hhas, -⟩ := h.stores rfl
    cases hret
    exact absurd hhas.family (by decide)
  · obtain ⟨t, w, hret, hwithin⟩ := h.within
    have hw : (sockunionSet ⟨List.replicate 112 0, by decide⟩ afInet.toNat (10 :: List.replicate 15 1) 16).map Prod.snd =
        some (0 :: 1 :: (List.range 16).map (4 + ·)) := by decide +kernel
    rw [hret, Option.map_some, Option.some_inj] at hw
    have hmem : 8 ∈ w := by
      dsimp only at hw
      rw [hw]
      decide
    exact absurd (hwithin 8 hmem) (by decide)

end Yjc.Network
