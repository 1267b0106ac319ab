import Yjc.Network.IfTrees
import Yjc.Network.IfName

/-! The registry of interfaces, in `network/if.c`. -/

namespace Yjc.Network
open KeyedSet

/-- `IFINDEX_INTERNAL` -/
def ifindexInternal : ℤ := 0

/-- An interface. Its name is in a buffer of `INTERFACE_NAMSIZ` bytes. -/
structure Iface where
  name : List UInt8
  ifindex : ℤ
  vrf : ℕ
  fits : name.length ≤ 15

/-- The VRFs, and the interfaces by their address. -/
structure Ifaces where
  vrfs : Vrfs
  iface : ℕ → Option Iface

inductive VrfBackend
  | vrfLite | netns | unknown | max

theorem sameName {s t : List UInt8} (hs : ∀ c ∈ s, c ≠ 0) (ht : ∀ c ∈ t, c ≠ 0) (hslen : s.length ≤ 15) (htlen : t.length ≤ 15) :
    IfCmpName s t 0 ↔ s = t := by
  have hname {s : List UInt8} (hs : ∀ c ∈ s, c ≠ 0) (hlen : s.length ≤ 15) : Name (2 ^ 32) s := by
    refine ⟨hs, fun run hrun hdigits => ?_, fun run hrun _ => ?_⟩
    · have hle := hrun.length_le
      have hvalue := CLib.digitsValue_lt hdigits
      have hpow : 10 ^ run.length ≤ 10 ^ 15 := Nat.pow_le_pow_right (by decide) (hle.trans hlen)
      omega
    · have hle := hrun.length_le
      omega
  have horder := ordersNames (le_refl (2 ^ 32))
  obtain ⟨r, hr⟩ := horder.terminates s t (hname hs hslen) (hname ht htlen)
  have hzero := horder.zero s t r (hname hs hslen) (hname ht htlen) hr
  rw [← hzero]
  refine ⟨fun h => hr.unique h, ?_⟩
  rintro rfl
  exact hr

/-- `if_new` -/
def ifNew (vrf : ℕ) : Iface := ⟨[], ifindexInternal, vrf, Nat.zero_le 15⟩

def Iface.setName (ifp : Iface) (name : List UInt8) : Iface := { ifp with name := strlcpy 16 name, fits := List.length_take_le 15 name }

namespace Vrfs

/-- The removal of a name that is not empty. -/
def removeName (s : Vrfs) (v : ℕ) (name : List UInt8) (i : ℕ) : Option Vrfs :=
  if name ≠ [] then s.ifnameRbRemove v name i else some s

def insertName (s : Vrfs) (v : ℕ) (name : List UInt8) (i : ℕ) : Option Vrfs :=
  if name ≠ [] then (s.ifnameRbInsert v name i).map Prod.fst else some s

/-- The removal of an index other than `IFINDEX_INTERNAL`. -/
def removeIndex (s : Vrfs) (v : ℕ) (ifindex : ℤ) (i : ℕ) : Option Vrfs :=
  if ifindex ≠ ifindexInternal then s.ifindexRbRemove v ifindex i else some s

def insertIndex (s : Vrfs) (v : ℕ) (ifindex : ℤ) (i : ℕ) : Option (Vrfs × Option ℕ) :=
  if ifindex ≠ ifindexInternal then s.ifindexRbInsert v ifindex i else some (s, none)

end Vrfs

namespace Ifaces

/-- The interface at `i` becomes `ifp`. -/
def put (s : Ifaces) (vrfs : Vrfs) (i : ℕ) (ifp : Iface) : Ifaces := ⟨vrfs, Function.update s.iface i (some ifp)⟩

/-- `none` is an access to what does not live, or the removal from a tree of what is not in it, here and below. -/
def ifSetName (s : Ifaces) (i : ℕ) (name : List UInt8) : Option Ifaces :=
  (s.iface i).bind fun ifp =>
    if ifp.name = name then some s
    else (s.vrfs.removeName ifp.vrf ifp.name i).bind fun vrfs =>
      (vrfs.insertName ifp.vrf (strlcpy 16 name) i).map fun vrfs => s.put vrfs i (ifp.setName name)

def ifCreateName (s : Ifaces) (new : ℕ) (name : List UInt8) (v : ℕ) : Option Ifaces := (s.put s.vrfs new (ifNew v)).ifSetName new name

/-- `newVrf` is the address for a VRF that `vrf_get` creates. -/
def ifUpdateToNewVrf (s : Ifaces) (newVrf i vrfId : ℕ) : Option Ifaces :=
  (s.iface i).bind fun ifp =>
    (s.vrfs.removeName ifp.vrf ifp.name i).bind fun vrfs =>
      (vrfs.removeIndex ifp.vrf ifp.ifindex i).bind fun vrfs =>
        (vrfs.vrfGet newVrf vrfId none).bind fun (vrfs, vrf) => vrf.bind fun v =>
          (vrfs.insertName v ifp.name i).bind fun vrfs =>
            (vrfs.insertIndex v ifp.ifindex i).map fun (vrfs, _) => s.put vrfs i { ifp with vrf := v }

def ifDelete (s : Ifaces) (i : ℕ) : Option Ifaces :=
  (s.iface i).bind fun ifp =>
    (s.vrfs.ifnameRbRemove ifp.vrf ifp.name i).bind fun vrfs =>
      (vrfs.removeIndex ifp.vrf ifp.ifindex i).map fun vrfs => ⟨vrfs, Function.update s.iface i none⟩

def ifLookupByIfindex (s : Ifaces) (ifindex : ℤ) (vrfId : ℕ) : Option (Option ℕ) :=
  match s.vrfs.vrfLookupById vrfId with
  | none => some none
  | some v => (s.vrfs.vrf v).map fun vrf => vrf.ifacesByIndex.find ifindex

def ifSetIndex (s : Ifaces) (i : ℕ) (ifindex : ℤ) : Option (Ifaces × ℤ) :=
  (s.iface i).bind fun ifp =>
    if ifp.ifindex = ifindex then some (s, 0)
    else (s.vrfs.vrf ifp.vrf).bind fun vrf => (s.ifLookupByIfindex ifindex vrf.vrfId).bind fun found =>
      if found ≠ none then some (s, -1)
      else (s.vrfs.removeIndex ifp.vrf ifp.ifindex i).bind fun vrfs =>
        (vrfs.insertIndex ifp.vrf ifindex i).map fun (vrfs, taken) =>
          (s.put vrfs i { ifp with ifindex }, if taken ≠ none then -1 else 0)

def ifLookupByNameVrf (s : Ifaces) (name : List UInt8) (v : ℕ) : Option (Option ℕ) :=
  if 16 ≤ name.length then some none
  else (s.vrfs.vrf v).map fun vrf => vrf.ifacesByName.find (strlcpy 16 name)

/-- The loop of `if_lookup_by_name_all_vrf`. -/
def lookupByName (s : Ifaces) (name : List UInt8) : List ℕ → Option (Option ℕ)
  | [] => some none
  | v :: vs => (s.ifLookupByNameVrf name v).bind fun
    | some i => some (some i)
    | none => s.lookupByName name vs

def ifLookupByNameAllVrf (s : Ifaces) (name : List UInt8) : Option (Option ℕ) :=
  if 16 ≤ name.length then some none
  else s.lookupByName name (s.vrfs.vrfsByName.elements fun a b => CLib.strcmp a b ≤ 0)

/-- "If it came from the kernel or by way of zclient, believe it", in `if_get_by_name`. -/
def believe (s : Ifaces) (newVrf i vrfId : ℕ) : Option Ifaces :=
  (s.iface i).bind fun ifp => (s.vrfs.vrf ifp.vrf).bind fun vrf =>
    if vrf.vrfId ≠ vrfId ∧ vrfId ≠ vrfUnknown then s.ifUpdateToNewVrf newVrf i vrfId else some s

/-- The end of `if_get_by_name`. -/
def create (s : Ifaces) (new : ℕ) (name : List UInt8) (v : ℕ) : Option (Ifaces × Option ℕ) := (s.ifCreateName new name v).map (·, some new)

/-- `newVrf` and `new` are the addresses for a VRF and an interface that are created. -/
def ifGetByName (s : Ifaces) (backend : VrfBackend) (newVrf new : ℕ) (name : List UInt8) (vrfId : ℕ) (vrfName : Option (List UInt8)) :
    Option (Ifaces × Option ℕ) :=
  match backend with
  | .unknown | .netns =>
    (s.vrfs.vrfGet newVrf vrfId vrfName).bind fun (vrfs, vrf) => vrf.bind fun v =>
      (Ifaces.ifLookupByNameVrf ⟨vrfs, s.iface⟩ name v).bind fun
        | some i => (Ifaces.believe ⟨vrfs, s.iface⟩ newVrf i vrfId).map (·, some i)
        | none => Ifaces.create ⟨vrfs, s.iface⟩ new name v
  | .vrfLite =>
    (s.ifLookupByNameAllVrf name).bind fun
      | some i => (s.believe newVrf i vrfId).map (·, some i)
      | none => (s.vrfs.vrfGet newVrf vrfId vrfName).bind fun (vrfs, vrf) => vrf.bind fun v => Ifaces.create ⟨vrfs, s.iface⟩ new name v
  | .max => some (s, none)

end Ifaces

inductive IfOp
  | getByName (backend : VrfBackend) (newVrf new : ℕ) (name : List UInt8) (vrfId : ℕ) (vrfName : Option (List UInt8))
  | setIndex (i : ℕ) (ifindex : ℤ)
  | updateToNewVrf (newVrf i vrfId : ℕ)
  | delete (i : ℕ)

def ifStep (s : Ifaces) : IfOp → Option Ifaces
  | .getByName backend newVrf new name vrfId vrfName => (s.ifGetByName backend newVrf new name vrfId vrfName).map Prod.fst
  | .setIndex i ifindex => (s.ifSetIndex i ifindex).map Prod.fst
  | .updateToNewVrf newVrf i vrfId => s.ifUpdateToNewVrf newVrf i vrfId
  | .delete i => s.ifDelete i

/-- New addresses are free, interfaces are passed while they live, and `vrf_get` returns a VRF. -/
def IfCall (s : Ifaces) : IfOp → Prop
  | .getByName _ newVrf new name vrfId vrfName => s.vrfs.vrf newVrf = none ∧ s.iface new = none ∧ (name ≠ [] ∧ name.length < 16) ∧
      (∀ n ∈ vrfName, VrfName n) ∧ (vrfName ≠ none ∨ vrfId ≠ vrfUnknown) ∧ ¬Clash s.vrfs vrfId vrfName
  | .setIndex i _ => (s.iface i).isSome
  | .updateToNewVrf newVrf i vrfId => s.vrfs.vrf newVrf = none ∧ (s.iface i).isSome ∧ vrfId ≠ vrfUnknown
  | .delete i => (s.iface i).isSome

instance (s : Vrfs) (vrfId : ℕ) (name : Option (List UInt8)) : Decidable (Clash s vrfId name) :=
  inferInstanceAs (Decidable (∃ v ∈ name.bind s.vrfLookupByName, ∃ vrf ∈ s.vrf v, vrf.Other vrfId))

instance (s : Ifaces) : ∀ op, Decidable (IfCall s op)
  | .getByName _ _ _ _ _ _ => inferInstanceAs (Decidable (_ ∧ _ ∧ (_ ∧ _) ∧ (∀ n ∈ _, VrfName n) ∧ (_ ∨ _) ∧ ¬_))
  | .setIndex i _ => inferInstanceAs (Decidable ((s.iface i).isSome = true))
  | .updateToNewVrf _ _ _ => inferInstanceAs (Decidable (_ ∧ _ ∧ _))
  | .delete i => inferInstanceAs (Decidable ((s.iface i).isSome = true))

/-- Each interface is found in its VRF by its name and, unless this is `IFINDEX_INTERNAL`, by its index; nothing else is found in any VRF. -/
structure IfacesConsistent (s : Ifaces) : Prop where
  byName : ∀ i ifp, s.iface i = some ifp → ∃ vrf, s.vrfs.vrf ifp.vrf = some vrf ∧ vrf.ifacesByName.find ifp.name = some i
  byIndex : ∀ i ifp vrf, s.iface i = some ifp → s.vrfs.vrf ifp.vrf = some vrf → ifp.ifindex ≠ ifindexInternal →
    vrf.ifacesByIndex.find ifp.ifindex = some i
  names : ∀ v vrf name i, s.vrfs.vrf v = some vrf → vrf.ifacesByName.find name = some i →
    ∃ ifp, s.iface i = some ifp ∧ ifp.vrf = v ∧ ifp.name = name
  indices : ∀ v vrf ifindex i, s.vrfs.vrf v = some vrf → vrf.ifacesByIndex.find ifindex = some i →
    ∃ ifp, s.iface i = some ifp ∧ ifp.vrf = v ∧ ifp.ifindex = ifindex ∧ ifindex ≠ ifindexInternal

/-- The VRF with the identifier, if there is one, has no other interface with the name or the index of this one. -/
def MoveFree (s : Ifaces) (i vrfId : ℕ) : Prop :=
  ∀ v ∈ s.vrfs.vrfLookupById vrfId, ∀ ifp ∈ s.iface i, (∀ j ∈ ifnameTree.find s.vrfs (v, ifp.name), j = i) ∧
    (ifp.ifindex ≠ ifindexInternal → ∀ j ∈ ifindexTree.find s.vrfs (v, ifp.ifindex), j = i)

/-- The same, if the VRF of the interface has another identifier. -/
def BelieveFree (s : Ifaces) (i vrfId : ℕ) : Prop :=
  ∀ ifp ∈ s.iface i, ∀ vrf ∈ s.vrfs.vrf ifp.vrf, vrf.vrfId ≠ vrfId → vrfId ≠ vrfUnknown → MoveFree s i vrfId

/-- The conditions of the steps. An interface goes only where its name and index are free; a name that is in no VRF with a name is not in
the one that is found by its identifier either; and an index that the lookup by the identifier of the VRF does not find is free in the VRF. -/
def IfFree (s : Ifaces) : IfOp → Prop
  | .getByName .vrfLite _ _ name vrfId vrfName =>
    match s.ifLookupByNameAllVrf name with
    | some (some i) => BelieveFree s i vrfId
    | _ => vrfName.bind s.vrfs.vrfLookupByName = none → vrfId ≠ vrfUnknown → ∀ v ∈ s.vrfs.vrfLookupById vrfId,
        ifnameTree.find s.vrfs (v, name) = none
  | .getByName _ _ _ _ _ _ => True
  | .setIndex i ifindex => ∀ ifp ∈ s.iface i, ∀ vrf ∈ s.vrfs.vrf ifp.vrf, ifp.ifindex ≠ ifindex → ifindex ≠ ifindexInternal →
      s.ifLookupByIfindex ifindex vrf.vrfId = some none → ifindexTree.find s.vrfs (ifp.vrf, ifindex) = none
  | .updateToNewVrf _ i vrfId => MoveFree s i vrfId
  | .delete _ => True

/-! ## The keys of the interfaces -/

variable {s t : Ifaces} {i v newVrf new vrfId : ℕ} {ifp : Iface} {name : List UInt8} {ifindex : ℤ} {u : Vrfs}

def Iface.place (ifp : Iface) : Option (ℕ × List UInt8) := some (ifp.vrf, ifp.name)

def indexKey (v : ℕ) (ifindex : ℤ) : Option (ℕ × ℤ) := if ifindex = ifindexInternal then none else some (v, ifindex)

def Iface.number (ifp : Iface) : Option (ℕ × ℤ) := indexKey ifp.vrf ifp.ifindex

theorem place_live (hi : s.iface i = some ifp) : keyOf Iface.place s.iface i = some (ifp.vrf, ifp.name) := by
  rw [keyOf, hi, Option.bind_some, Iface.place]

theorem number_live (hi : s.iface i = some ifp) : keyOf Iface.number s.iface i = indexKey ifp.vrf ifp.ifindex := by
  rw [keyOf, hi, Option.bind_some, Iface.number]

theorem indexKey_eq {v w : ℕ} {k l : ℤ} : indexKey v k = some (w, l) ↔ v = w ∧ k = l ∧ l ≠ ifindexInternal := by
  rw [indexKey]
  split_ifs with h
  · exact iff_of_false nofun fun hk => hk.2.2 (hk.2.1.symm.trans h)
  · rw [Option.some_inj, Prod.mk_inj]
    refine and_congr_right fun _ => ⟨fun hk => ⟨hk, fun hl => h (hk.trans hl)⟩, And.left⟩

theorem ifacesConsistent_iff : IfacesConsistent s ↔
    Indexes (ifnameTree.find s.vrfs) (keyOf Iface.place s.iface) ∧ Indexes (ifindexTree.find s.vrfs) (keyOf Iface.number s.iface) := by
  constructor
  · intro h
    constructor
    · rintro ⟨v, name⟩ i
      constructor
      · intro hfind
        obtain ⟨vrf, hv, hfind⟩ := IfTree.find_live hfind
        obtain ⟨ifp, hi, rfl, rfl⟩ := h.names v vrf name i hv hfind
        exact place_live hi
      · intro hkey
        obtain ⟨ifp, hi, hkey⟩ := Option.bind_eq_some_iff.mp hkey
        obtain ⟨rfl, rfl⟩ := Prod.mk.inj (Option.some.inj hkey)
        obtain ⟨vrf, hv, hfind⟩ := h.byName i ifp hi
        exact (findIn_of hv _).trans hfind
    · rintro ⟨v, ifindex⟩ i
      constructor
      · intro hfind
        obtain ⟨vrf, hv, hfind⟩ := IfTree.find_live hfind
        obtain ⟨ifp, hi, hkey⟩ := h.indices v vrf ifindex i hv hfind
        rw [number_live hi]
        exact indexKey_eq.mpr hkey
      · intro hkey
        obtain ⟨ifp, hi, hkey⟩ := Option.bind_eq_some_iff.mp hkey
        obtain ⟨rfl, rfl, hk⟩ := indexKey_eq.mp hkey
        obtain ⟨vrf, hv, -⟩ := h.byName i ifp hi
        exact (findIn_of hv _).trans (h.byIndex i ifp vrf hi hv hk)
  · rintro ⟨hnames, hindices⟩
    refine ⟨fun i ifp hi => ?_, fun i ifp vrf hi hv hk => ?_, fun v vrf name i hv hfind => ?_, fun v vrf ifindex i hv hfind => ?_⟩
    · exact IfTree.find_live ((hnames (ifp.vrf, ifp.name) i).mpr (place_live hi))
    · have hfind := (hindices (ifp.vrf, ifp.ifindex) i).mpr (by rw [number_live hi]; exact indexKey_eq.mpr ⟨rfl, rfl, hk⟩)
      exact (findIn_of hv _).symm.trans hfind
    · have hkey := (hnames (v, name) i).mp ((findIn_of hv _).trans hfind)
      obtain ⟨ifp, hi, hkey⟩ := Option.bind_eq_some_iff.mp hkey
      exact ⟨ifp, hi, Prod.mk.inj (Option.some.inj hkey)⟩
    · have hkey := (hindices (v, ifindex) i).mp ((findIn_of hv _).trans hfind)
      obtain ⟨ifp, hi, hkey⟩ := Option.bind_eq_some_iff.mp hkey
      exact ⟨ifp, hi, indexKey_eq.mp hkey⟩

/-! ## Removal and insertion under the conditions of the source -/

section Trees
variable {w : Vrfs} {vrf : Vrf} {place : ℕ → Option (ℕ × List UInt8)} {number : ℕ → Option (ℕ × ℤ)}

theorem removeName_spec (h : Indexes (ifnameTree.find u) place) (hkey : place i = some (v, name)) (hn : name ≠ []) :
    ∃ w, u.removeName v name i = some w ∧ SameVrfs u w ∧ Indexes (ifnameTree.find w) (Function.update place i none) ∧
      ifindexTree.find w = ifindexTree.find u := by
  rw [Vrfs.removeName, if_pos hn]
  exact rbRemove_indexes ifnameTree_apart h hkey

theorem removeIndex_spec (h : Indexes (ifindexTree.find u) number) (hkey : number i = indexKey v ifindex) :
    ∃ w, u.removeIndex v ifindex i = some w ∧ SameVrfs u w ∧ Indexes (ifindexTree.find w) (Function.update number i none) ∧
      ifnameTree.find w = ifnameTree.find u := by
  rw [Vrfs.removeIndex]
  by_cases hk : ifindex = ifindexInternal
  · rw [indexKey, if_pos hk] at hkey
    rw [if_neg (not_not_intro hk)]
    refine ⟨u, rfl, .refl u, ?_, rfl⟩
    rwa [← hkey, Function.update_eq_self]
  · rw [indexKey, if_neg hk] at hkey
    rw [if_pos hk]
    exact rbRemove_indexes ifindexTree_apart h hkey

theorem insertName_spec (h : Indexes (ifnameTree.find u) place) (hkey : place i = none) (hv : u.vrf v = some vrf) (hn : name ≠ []) :
    ∃ w, u.insertName v name i = some w ∧ SameVrfs u w ∧
      (Indexes (ifnameTree.find w) (Function.update place i (some (v, name))) ↔ ifnameTree.find u (v, name) = none) ∧
      ifindexTree.find w = ifindexTree.find u := by
  obtain ⟨w, hw, hspec⟩ := rbInsert_indexes ifnameTree_apart h hkey hv name
  rw [Vrfs.insertName, if_pos hn, Vrfs.ifnameRbInsert, hw]
  exact ⟨w, rfl, hspec⟩

theorem insertIndex_spec (h : Indexes (ifindexTree.find u) number) (hkey : number i = none) (hv : u.vrf v = some vrf) (ifindex : ℤ) :
    ∃ w r, u.insertIndex v ifindex i = some (w, r) ∧ SameVrfs u w ∧
      (Indexes (ifindexTree.find w) (Function.update number i (indexKey v ifindex)) ↔
        (ifindex ≠ ifindexInternal → ifindexTree.find u (v, ifindex) = none)) ∧
      ifnameTree.find w = ifnameTree.find u := by
  rw [Vrfs.insertIndex, indexKey]
  by_cases hk : ifindex = ifindexInternal
  · rw [if_neg (not_not_intro hk), if_pos hk, ← hkey, Function.update_eq_self]
    exact ⟨u, none, rfl, .refl u, iff_of_true h fun h => absurd hk h, rfl⟩
  · obtain ⟨w, hw, hsame, hiff, hother⟩ := rbInsert_indexes ifindexTree_apart h hkey hv ifindex
    rw [if_pos hk, if_neg hk]
    exact ⟨w, _, hw, hsame, hiff.trans ⟨fun hnone _ => hnone, fun hfree => hfree hk⟩, hother⟩

end Trees

/-! ## The steps -/

/-- What every step keeps, whether it meets its condition or not. -/
structure Ready (s : Ifaces) : Prop where
  sound : s.vrfs.Sound
  named : ∀ i ifp, s.iface i = some ifp → ifp.name ≠ []

theorem Ready.put (hs : Ready s) (hu : u.Sound) (hn : ifp.name ≠ []) : Ready (s.put u i ifp) := by
  refine ⟨hu, fun j ifp' hj => ?_⟩
  dsimp only [Ifaces.put] at hj
  by_cases hji : j = i
  · subst hji
    rw [Function.update_self] at hj
    cases hj
    exact hn
  · rw [Function.update_of_ne hji] at hj
    exact hs.named j ifp' hj

theorem place_put (s : Ifaces) (u : Vrfs) (i : ℕ) (ifp : Iface) :
    keyOf Iface.place (s.put u i ifp).iface = Function.update (keyOf Iface.place s.iface) i (some (ifp.vrf, ifp.name)) := keyOf_update ..

theorem number_put (s : Ifaces) (u : Vrfs) (i : ℕ) (ifp : Iface) :
    keyOf Iface.number (s.put u i ifp).iface = Function.update (keyOf Iface.number s.iface) i (indexKey ifp.vrf ifp.ifindex) := keyOf_update ..

theorem leave_spec (hs : Ready s) (hc : IfacesConsistent s) (hi : s.iface i = some ifp) :
    ∃ u w, s.vrfs.removeName ifp.vrf ifp.name i = some u ∧ u.removeIndex ifp.vrf ifp.ifindex i = some w ∧ SameVrfs s.vrfs w ∧
      Indexes (ifnameTree.find w) (Function.update (keyOf Iface.place s.iface) i none) ∧
      Indexes (ifindexTree.find w) (Function.update (keyOf Iface.number s.iface) i none) := by
  obtain ⟨hnames, hindices⟩ := ifacesConsistent_iff.mp hc
  obtain ⟨u, hu, hsame, hnames, hother⟩ := removeName_spec hnames (place_live hi) (hs.named i ifp hi)
  rw [← hother] at hindices
  obtain ⟨w, hw, hsame', hindices, hother⟩ := removeIndex_spec hindices (number_live hi)
  rw [← hother] at hnames
  exact ⟨u, w, hu, hw, hsame.trans hsame', hnames, hindices⟩

theorem ifDelete_spec (hs : Ready s) (hc : IfacesConsistent s) (hi : s.iface i = some ifp) :
    ∃ t, s.ifDelete i = some t ∧ Ready t ∧ IfacesConsistent t := by
  obtain ⟨u, w, hu, hw, hsame, hnames, hindices⟩ := leave_spec hs hc hi
  rw [Vrfs.removeName, if_pos (hs.named i ifp hi)] at hu
  rw [Ifaces.ifDelete, hi, Option.bind_some, hu, Option.bind_some, hw, Option.map_some]
  refine ⟨_, rfl, ⟨hsame.sound hs.sound, fun j ifp' hj => ?_⟩, ifacesConsistent_iff.mpr ⟨?_, ?_⟩⟩
  · dsimp only at hj
    by_cases hji : j = i
    · subst hji
      rw [Function.update_self] at hj
      cases hj
    · rw [Function.update_of_ne hji] at hj
      exact hs.named j ifp' hj
  · rwa [keyOf_update]
  · rwa [keyOf_update]

theorem Returned.moveFree {x : Vrfs} (h : Returned u newVrf vrfId none x v) (hu : SameVrfs s.vrfs u) (hnew : s.vrfs.vrf newVrf = none)
    (hknown : vrfId ≠ vrfUnknown) (hi : s.iface i = some ifp) :
    MoveFree s i vrfId ↔ (∀ j ∈ ifnameTree.find s.vrfs (v, ifp.name), j = i) ∧
      (ifp.ifindex ≠ ifindexInternal → ∀ j ∈ ifindexTree.find s.vrfs (v, ifp.ifindex), j = i) := by
  have hid : u.vrfLookupById vrfId = s.vrfs.vrfLookupById vrfId := by rw [Vrfs.vrfLookupById, hu.byId, Vrfs.vrfLookupById]
  rw [MoveFree, ← hid]
  rcases h.origin with hname | ⟨-, -, hfound⟩ | ⟨-, rfl, hfree⟩
  · cases hname
  · rw [hfound]
    simp only [Option.mem_some_iff, forall_eq', hi]
  · rw [hfree hknown]
    refine iff_of_true (by simp) ⟨fun j hj => ?_, fun _ j hj => ?_⟩
    · rw [IfTree.find, findIn, hnew] at hj
      cases hj
    · rw [IfTree.find, findIn, hnew] at hj
      cases hj

theorem ifUpdateToNewVrf_spec (hs : Ready s) (hc : IfacesConsistent s) (hnew : s.vrfs.vrf newVrf = none) (hi : s.iface i = some ifp)
    (hknown : vrfId ≠ vrfUnknown) : ∃ t, s.ifUpdateToNewVrf newVrf i vrfId = some t ∧ Ready t ∧ (IfacesConsistent t ↔ MoveFree s i vrfId) := by
  obtain ⟨hnames, hindices⟩ := ifacesConsistent_iff.mp hc
  obtain ⟨u, w, hu, hw, hsame, hnamesLeft, hindicesLeft⟩ := leave_spec hs hc hi
  obtain ⟨x, v, hget, hret⟩ := @vrfGet_returned w newVrf vrfId none (hsame.sound hs.sound) (hsame.free hnew) nofun (.inr hknown)
    (fun ⟨v, hv, _⟩ => by cases hv)
  obtain ⟨vrf, hv, -⟩ := hret.live
  -- the interface enters the trees of the VRF at `v`
  have hnames' := hnamesLeft
  rw [← hret.ifnames] at hnames'
  obtain ⟨y, hy, hsamey, hnameIff, hothery⟩ := insertName_spec hnames' (Function.update_self ..) hv (hs.named i ifp hi)
  have hindices' := hindicesLeft
  rw [← hret.ifindices, ← hothery] at hindices'
  obtain ⟨vrf', hv', -⟩ := hsamey.live hv
  obtain ⟨z, r, hz, hsamez, hindexIff, hotherz⟩ := insertIndex_spec hindices' (Function.update_self ..) hv' ifp.ifindex
  rw [Ifaces.ifUpdateToNewVrf, hi, Option.bind_some, hu, Option.bind_some, hw, Option.bind_some, hget, Option.bind_some]
  dsimp only
  rw [Option.bind_some, hy, Option.bind_some, hz, Option.map_some]
  refine ⟨_, rfl, hs.put ((hsamey.trans hsamez).sound hret.sound) (hs.named i ifp hi), ?_⟩
  rw [ifacesConsistent_iff, place_put, number_put, hret.moveFree hsame hnew hknown hi]
  dsimp only [Ifaces.put]
  rw [Function.update_idem] at hnameIff hindexIff
  rw [hotherz, hnameIff, hindexIff, hothery, hret.ifnames, hret.ifindices, hnames.left_iff hnamesLeft, hindices.left_iff hindicesLeft]

theorem Ready.lookup (hs : Ready s) (ifindex : ℤ) (vrfId : ℕ) : ∃ found, s.ifLookupByIfindex ifindex vrfId = some found := by
  rw [Ifaces.ifLookupByIfindex]
  cases hid : s.vrfs.vrfLookupById vrfId with
  | none => exact ⟨none, rfl⟩
  | some w =>
    obtain ⟨vrf, hw, -⟩ := keyOf_eq_some.mp (hs.sound.ids vrfId w hid)
    exact ⟨_, by dsimp only; rw [hw]; rfl⟩

theorem ifSetIndex_spec (hs : Ready s) (hc : IfacesConsistent s) (hi : s.iface i = some ifp) (ifindex : ℤ) :
    ∃ t r, s.ifSetIndex i ifindex = some (t, r) ∧ Ready t ∧ (IfacesConsistent t ↔ IfFree s (.setIndex i ifindex)) := by
  obtain ⟨vrf, hv, hfound⟩ := hc.byName i ifp hi
  obtain ⟨hnames, hindices⟩ := ifacesConsistent_iff.mp hc
  have hcond : IfFree s (.setIndex i ifindex) ↔ (ifp.ifindex ≠ ifindex → ifindex ≠ ifindexInternal →
      s.ifLookupByIfindex ifindex vrf.vrfId = some none → ifindexTree.find s.vrfs (ifp.vrf, ifindex) = none) := by
    refine ⟨fun h => h ifp hi vrf hv, fun h ifp' hi' vrf' hv' => ?_⟩
    cases hi.symm.trans hi'
    cases hv.symm.trans hv'
    exact h
  rw [Ifaces.ifSetIndex, hi, Option.bind_some, hcond]
  by_cases hsame : ifp.ifindex = ifindex
  · rw [if_pos hsame]
    exact ⟨s, 0, rfl, hs, iff_of_true hc fun hne => absurd hsame hne⟩
  rw [if_neg hsame, hv, Option.bind_some]
  obtain ⟨found, hlookup⟩ := hs.lookup ifindex vrf.vrfId
  rw [hlookup, Option.bind_some]
  by_cases hnone : found = none
  · -- the index is not seen, and the interface takes it
    rw [if_neg (not_not_intro hnone)]
    obtain ⟨w, hw, hsamew, hleft, hotherw⟩ := removeIndex_spec hindices (number_live hi)
    obtain ⟨vrf', hv', -⟩ := hsamew.live hv
    obtain ⟨z, r, hz, hsamez, hiff, hotherz⟩ := insertIndex_spec hleft (Function.update_self ..) hv' ifindex
    rw [hw, Option.bind_some, hz, Option.map_some]
    refine ⟨_, _, rfl, hs.put ((hsamew.trans hsamez).sound hs.sound) (hs.named i ifp hi), ?_⟩
    rw [ifacesConsistent_iff, place_put, number_put]
    dsimp only [Ifaces.put]
    rw [Function.update_idem] at hiff
    have hplace : Function.update (keyOf Iface.place s.iface) i (some (ifp.vrf, ifp.name)) = keyOf Iface.place s.iface := by
      rw [← place_live hi, Function.update_eq_self]
    rw [hplace, hotherz, hotherw, hiff, and_iff_right hnames, hnone]
    have hfree : ifindexTree.find w (ifp.vrf, ifindex) = none ↔ ifindexTree.find s.vrfs (ifp.vrf, ifindex) = none := by
      rw [hindices.left_iff hleft]
      refine ⟨fun h => ?_, fun h j hj => by rw [h] at hj; cases hj⟩
      by_contra hne
      obtain ⟨j, hj⟩ := Option.ne_none_iff_exists'.mp hne
      obtain rfl := h j hj
      -- its own index is another one
      have hkey := (hindices (ifp.vrf, ifindex) j).mp hj
      rw [number_live hi] at hkey
      exact hsame (indexKey_eq.mp hkey).2.1
    rw [hfree]
    exact ⟨fun h _ hk _ => h hk, fun h hk => h hsame hk rfl⟩
  · rw [if_pos hnone]
    exact ⟨s, -1, rfl, hs, iff_of_true hc fun _ _ h => absurd (Option.some.inj h) hnone⟩

theorem create_spec (hs : Ready s) (hc : IfacesConsistent s) (hnew : s.iface new = none) {vrf : Vrf} (hv : s.vrfs.vrf v = some vrf)
    (hn : name ≠ []) (hlen : name.length < 16) :
    ∃ t, s.create new name v = some (t, some new) ∧ Ready t ∧ (IfacesConsistent t ↔ ifnameTree.find s.vrfs (v, name) = none) := by
  obtain ⟨hnames, hindices⟩ := ifacesConsistent_iff.mp hc
  have hplace : keyOf Iface.place s.iface new = none := by rw [keyOf, hnew, Option.bind_none]
  have hnumber : keyOf Iface.number s.iface new = none := by rw [keyOf, hnew, Option.bind_none]
  have hcopy : strlcpy 16 name = name := strlcpy_of_le hlen
  obtain ⟨w, hw, hsame, hiff, hother⟩ := insertName_spec hnames hplace hv hn
  have hset : s.ifCreateName new name v = some (s.put w new ((ifNew v).setName name)) := by
    have hunnamed : (ifNew v).name ≠ name := hn.symm
    have hremove : s.vrfs.removeName (ifNew v).vrf (ifNew v).name new = some s.vrfs := if_neg (not_not_intro rfl)
    have hinsert : s.vrfs.insertName (ifNew v).vrf name new = some w := hw
    rw [Ifaces.ifCreateName, Ifaces.ifSetName]
    dsimp only [Ifaces.put]
    rw [Function.update_self, Option.bind_some, if_neg hunnamed, hremove, Option.bind_some, hcopy, hinsert, Option.map_some,
      Function.update_idem]
  have hnamed : ((ifNew v).setName name).name ≠ [] := by
    change strlcpy 16 name ≠ []
    rwa [hcopy]
  rw [Ifaces.create, hset, Option.map_some]
  refine ⟨_, rfl, hs.put (hsame.sound hs.sound) hnamed, ?_⟩
  rw [ifacesConsistent_iff, place_put, number_put]
  dsimp only [Ifaces.put, Iface.setName, ifNew]
  rw [hcopy, hiff, indexKey, if_pos rfl, ← hnumber, Function.update_eq_self, hother]
  exact and_iff_left hindices

theorem believe_spec (hs : Ready s) (hc : IfacesConsistent s) (hnew : s.vrfs.vrf newVrf = none) (hi : s.iface i = some ifp) (vrfId : ℕ) :
    ∃ t, s.believe newVrf i vrfId = some t ∧ Ready t ∧ (IfacesConsistent t ↔ BelieveFree s i vrfId) := by
  obtain ⟨vrf, hv, -⟩ := hc.byName i ifp hi
  have hcond : BelieveFree s i vrfId ↔ (vrf.vrfId ≠ vrfId → vrfId ≠ vrfUnknown → MoveFree s i vrfId) := by
    refine ⟨fun h => h ifp hi vrf hv, fun h ifp' hi' vrf' hv' => ?_⟩
    cases hi.symm.trans hi'
    cases hv.symm.trans hv'
    exact h
  rw [Ifaces.believe, hi, Option.bind_some, hv, Option.bind_some, hcond]
  by_cases hmove : vrf.vrfId ≠ vrfId ∧ vrfId ≠ vrfUnknown
  · obtain ⟨t, ht, hready, hiff⟩ := ifUpdateToNewVrf_spec hs hc hnew hi hmove.2
    rw [if_pos hmove]
    exact ⟨t, ht, hready, hiff.trans ⟨fun h _ _ => h, fun h => h hmove.1 hmove.2⟩⟩
  · rw [if_neg hmove]
    exact ⟨s, rfl, hs, iff_of_true hc fun hne hknown => absurd ⟨hne, hknown⟩ hmove⟩

/-! ## `if_get_by_name` -/

theorem ifLookupByNameVrf_eq {vrf : Vrf} (hlen : name.length < 16) (hv : s.vrfs.vrf v = some vrf) :
    s.ifLookupByNameVrf name v = some (ifnameTree.find s.vrfs (v, name)) := by
  rw [Ifaces.ifLookupByNameVrf, if_neg (Nat.not_le.mpr hlen), hv, strlcpy_of_le hlen]
  exact congrArg some (findIn_of hv name).symm

theorem lookupByName_spec (hlen : name.length < 16) {vs : List ℕ} (hvs : ∀ v ∈ vs, ∃ vrf, s.vrfs.vrf v = some vrf) :
    (∃ i, ∃ v ∈ vs, s.lookupByName name vs = some (some i) ∧ ifnameTree.find s.vrfs (v, name) = some i) ∨
      (s.lookupByName name vs = some none ∧ ∀ v ∈ vs, ifnameTree.find s.vrfs (v, name) = none) := by
  induction vs with
  | nil => exact .inr ⟨rfl, nofun⟩
  | cons v vs ih =>
    obtain ⟨vrf, hv⟩ := hvs v List.mem_cons_self
    rw [Ifaces.lookupByName, ifLookupByNameVrf_eq hlen hv, Option.bind_some]
    cases hfind : ifnameTree.find s.vrfs (v, name) with
    | some i => exact .inl ⟨i, v, List.mem_cons_self, rfl, hfind⟩
    | none =>
      rcases ih fun w hw => hvs w (List.mem_cons_of_mem v hw) with ⟨i, w, hw, hlookup, hfound⟩ | ⟨hlookup, hnone⟩
      · exact .inl ⟨i, w, List.mem_cons_of_mem v hw, hlookup, hfound⟩
      · exact .inr ⟨hlookup, List.forall_mem_cons.mpr ⟨hfind, hnone⟩⟩

theorem ifLookupByNameAllVrf_spec (hs : Ready s) (hlen : name.length < 16) :
    (∃ i v, s.ifLookupByNameAllVrf name = some (some i) ∧ ifnameTree.find s.vrfs (v, name) = some i) ∨
      (s.ifLookupByNameAllVrf name = some none ∧
        ∀ n v, s.vrfs.vrfsByName.find n = some v → ifnameTree.find s.vrfs (v, name) = none) := by
  rw [Ifaces.ifLookupByNameAllVrf, if_neg (Nat.not_le.mpr hlen)]
  rcases @lookupByName_spec s name hlen (s.vrfs.vrfsByName.elements fun a b => CLib.strcmp a b ≤ 0) (fun v hv => by
    obtain ⟨n, hn⟩ := (mem_elements _).mp hv
    obtain ⟨vrf, hvrf, -⟩ := keyOf_eq_some.mp ((hs.sound.names n v).mp hn)
    exact ⟨vrf, hvrf⟩) with ⟨i, v, -, hlookup, hfind⟩ | ⟨hlookup, hnone⟩
  · exact .inl ⟨i, v, hlookup, hfind⟩
  · exact .inr ⟨hlookup, fun n v hn => hnone v ((mem_elements _).mpr ⟨n, hn⟩)⟩

theorem believe_own {vrf : Vrf} (hi : s.iface i = some ifp) (hv : s.vrfs.vrf ifp.vrf = some vrf) (h : vrfId ≠ vrfUnknown → vrf.vrfId = vrfId) :
    s.believe newVrf i vrfId = some s := by
  rw [Ifaces.believe, hi, Option.bind_some, hv, Option.bind_some]
  exact if_neg fun hmove => hmove.1 (h hmove.2)

variable {vrfName : Option (List UInt8)}

theorem Returned.ready (h : Returned s.vrfs newVrf vrfId vrfName u v) (hs : Ready s) (hc : IfacesConsistent s) :
    Ready ⟨u, s.iface⟩ ∧ IfacesConsistent ⟨u, s.iface⟩ := by
  refine ⟨⟨h.sound, hs.named⟩, ifacesConsistent_iff.mpr ?_⟩
  dsimp only
  rw [h.ifnames, h.ifindices]
  exact ifacesConsistent_iff.mp hc

theorem getInVrf_spec (hs : Ready s) (hc : IfacesConsistent s) (hnew : s.iface new = none) {vrf : Vrf} (hv : s.vrfs.vrf v = some vrf)
    (hid : vrfId ≠ vrfUnknown → vrf.vrfId = vrfId) (hn : name ≠ []) (hlen : name.length < 16) :
    ∃ t r, ((s.ifLookupByNameVrf name v).bind fun
        | some i => (s.believe newVrf i vrfId).map (·, some i)
        | none => s.create new name v) = some (t, r) ∧ Ready t ∧ IfacesConsistent t := by
  rw [ifLookupByNameVrf_eq hlen hv, Option.bind_some]
  cases hfind : ifnameTree.find s.vrfs (v, name) with
  | some i =>
    have hkey := ((ifacesConsistent_iff.mp hc).1 (v, name) i).mp hfind
    obtain ⟨ifp, hi, hkey⟩ := Option.bind_eq_some_iff.mp hkey
    obtain ⟨rfl, -⟩ := Prod.mk.inj (Option.some.inj hkey)
    dsimp only
    rw [believe_own hi hv hid]
    exact ⟨s, some i, rfl, hs, hc⟩
  | none =>
    obtain ⟨t, ht, hready, hiff⟩ := create_spec hs hc hnew hv hn hlen
    exact ⟨t, some new, ht, hready, hiff.mpr hfind⟩

theorem Returned.nameFree (h : Returned s.vrfs newVrf vrfId vrfName u v) (hnewVrf : s.vrfs.vrf newVrf = none)
    (hnone : ∀ n v, s.vrfs.vrfsByName.find n = some v → ifnameTree.find s.vrfs (v, name) = none) :
    ifnameTree.find s.vrfs (v, name) = none ↔ (vrfName.bind s.vrfs.vrfLookupByName = none → vrfId ≠ vrfUnknown →
      ∀ v ∈ s.vrfs.vrfLookupById vrfId, ifnameTree.find s.vrfs (v, name) = none) := by
  rcases h.origin with hfound | ⟨hnoName, hknown, hfound⟩ | ⟨-, rfl, hfree⟩
  · obtain ⟨n, -, hn⟩ := Option.bind_eq_some_iff.mp hfound
    refine iff_of_true (hnone _ v hn) fun hnoName => ?_
    cases hnoName.symm.trans hfound
  · rw [hfound]
    exact ⟨fun hname _ _ w hw => by cases hw; exact hname, fun hname => hname hnoName hknown v rfl⟩
  · refine iff_of_true ?_ fun _ hknown w hw => ?_
    · rw [IfTree.find, findIn, hnewVrf, Option.bind_none]
    · cases (hfree hknown).symm.trans hw

theorem ifGetByName_spec (hs : Ready s) (hc : IfacesConsistent s) (backend : VrfBackend)
    (hop : IfCall s (.getByName backend newVrf new name vrfId vrfName)) :
    ∃ t r, s.ifGetByName backend newVrf new name vrfId vrfName = some (t, r) ∧ Ready t ∧
      (IfacesConsistent t ↔ IfFree s (.getByName backend newVrf new name vrfId vrfName)) := by
  obtain ⟨hnewVrf, hnew, ⟨hn, hlen⟩, hnames, hgiven, hclash⟩ := hop
  obtain ⟨u, v, hget, hret⟩ := vrfGet_returned hs.sound hnewVrf hnames hgiven hclash
  obtain ⟨vrf, hv, hid⟩ := hret.live
  obtain ⟨hready, hconsistent⟩ := hret.ready hs hc
  have hinVrf : ∃ t r, (((s.vrfs.vrfGet newVrf vrfId vrfName).bind fun (vrfs, vrf) => vrf.bind fun v =>
      (Ifaces.ifLookupByNameVrf ⟨vrfs, s.iface⟩ name v).bind fun
        | some i => (Ifaces.believe ⟨vrfs, s.iface⟩ newVrf i vrfId).map (·, some i)
        | none => Ifaces.create ⟨vrfs, s.iface⟩ new name v)) = some (t, r) ∧ Ready t ∧ IfacesConsistent t := by
    rw [hget]
    exact getInVrf_spec hready hconsistent hnew hv hid hn hlen
  cases backend with
  | unknown =>
    obtain ⟨t, r, ht, htready, htc⟩ := hinVrf
    exact ⟨t, r, ht, htready, iff_of_true htc trivial⟩
  | netns =>
    obtain ⟨t, r, ht, htready, htc⟩ := hinVrf
    exact ⟨t, r, ht, htready, iff_of_true htc trivial⟩
  | max => exact ⟨s, none, rfl, hs, iff_of_true hc trivial⟩
  | vrfLite =>
    rw [Ifaces.ifGetByName, IfFree]
    rcases ifLookupByNameAllVrf_spec hs hlen with ⟨i, w, hlookup, hfind⟩ | ⟨hlookup, hnone⟩
    · have hkey := ((ifacesConsistent_iff.mp hc).1 (w, name) i).mp hfind
      obtain ⟨ifp, hi, -⟩ := Option.bind_eq_some_iff.mp hkey
      obtain ⟨t, ht, htready, hiff⟩ := believe_spec hs hc hnewVrf hi vrfId
      rw [hlookup, Option.bind_some]
      exact ⟨t, some i, by dsimp only; rw [ht]; rfl, htready, hiff⟩
    · obtain ⟨t, ht, htready, hiff⟩ := create_spec hready hconsistent hnew hv hn hlen
      rw [hlookup, Option.bind_some]
      dsimp only
      rw [hget, Option.bind_some]
      refine ⟨t, some new, ht, htready, hiff.trans ?_⟩
      dsimp only
      rw [hret.ifnames]
      exact hret.nameFree hnewVrf hnone

/-! ## Runs -/

/-- A step is defined, and keeps the registry consistent exactly when it meets the condition. -/
theorem ifStep_spec (op : IfOp) (hs : Ready s) (hc : IfacesConsistent s) (hop : IfCall s op) :
    ∃ t, ifStep s op = some t ∧ Ready t ∧ (IfacesConsistent t ↔ IfFree s op) := by
  cases op with
  | getByName backend newVrf new name vrfId vrfName =>
    obtain ⟨t, r, ht, hspec⟩ := ifGetByName_spec hs hc backend hop
    exact ⟨t, by rw [ifStep, ht]; rfl, hspec⟩
  | setIndex i ifindex =>
    obtain ⟨ifp, hi⟩ := Option.isSome_iff_exists.mp hop
    obtain ⟨t, r, ht, hspec⟩ := ifSetIndex_spec hs hc hi ifindex
    exact ⟨t, by rw [ifStep, ht]; rfl, hspec⟩
  | updateToNewVrf newVrf i vrfId =>
    obtain ⟨hnew, hlive, hknown⟩ := hop
    obtain ⟨ifp, hi⟩ := Option.isSome_iff_exists.mp hlive
    exact ifUpdateToNewVrf_spec hs hc hnew hi hknown
  | delete i =>
    obtain ⟨ifp, hi⟩ := Option.isSome_iff_exists.mp hop
    obtain ⟨t, ht, hready, htc⟩ := ifDelete_spec hs hc hi
    exact ⟨t, ht, hready, iff_of_true htc trivial⟩

/-- The registry stays consistent exactly in the runs whose steps meet the conditions. -/
theorem ifaces_consistent (hvrfs : s.vrfs.Sound) (hnamed : ∀ i ifp, s.iface i = some ifp → ifp.name ≠ []) (hs : IfacesConsistent s)
    (ops : List IfOp) (hops : Run.Along ifStep IfCall s ops) :
    Run.Along ifStep IfFree s ops ↔ ∀ p, p <+: ops → ∃ t, Run.exec ifStep s p = some t ∧ IfacesConsistent t :=
  Run.along_iff_safe Ready (fun _ op => ifStep_spec op) ⟨hvrfs, hnamed⟩ hs hops

/-- Two VRFs, and no interfaces. -/
def twoVrfs : Ifaces where
  vrfs.vrf
    | 0 => some { Vrf.new with vrfId := 1, name := [97], fits := by decide }
    | 1 => some { Vrf.new with vrfId := 2, name := [98], fits := by decide }
    | _ => none
  vrfs.vrfsById := (Tree.insert ∅ 1 0).insert 2 1
  vrfs.vrfsByName := (Tree.insert ∅ [97] 0).insert [98] 1
  iface _ := none

theorem twoVrfs_vrf {vrf : Vrf} (h : twoVrfs.vrfs.vrf v = some vrf) :
    (v = 0 ∧ vrf.vrfId = 1 ∧ vrf.name = [97] ∨ v = 1 ∧ vrf.vrfId = 2 ∧ vrf.name = [98]) ∧ vrf.ifacesByName = ∅ ∧ vrf.ifacesByIndex = ∅ := by
  match v, h with
  | 0, h =>
    cases h
    exact ⟨.inl ⟨rfl, rfl, rfl⟩, rfl, rfl⟩
  | 1, h =>
    cases h
    exact ⟨.inr ⟨rfl, rfl, rfl⟩, rfl, rfl⟩

theorem twoVrfs_consistent : VrfsConsistent twoVrfs.vrfs ∧ IfacesConsistent twoVrfs := by
  refine ⟨⟨fun v vrf hv _ => ?_, fun v vrf hv _ => ?_, fun k v hk => ?_, fun n v hn => ?_⟩, nofun, nofun, fun v vrf name i hv hfind => ?_,
    fun v vrf ifindex i hv hfind => ?_⟩
  · rcases (twoVrfs_vrf hv).1 with ⟨rfl, hid, -⟩ | ⟨rfl, hid, -⟩ <;> rw [hid] <;> rfl
  · rcases (twoVrfs_vrf hv).1 with ⟨rfl, -, hname⟩ | ⟨rfl, -, hname⟩ <;> rw [hname] <;> rfl
  · have hmem : (⟨k, v⟩ : Sigma fun _ : ℕ => ℕ) ∈ [(⟨2, 1⟩ : Sigma fun _ : ℕ => ℕ), ⟨1, 0⟩] := AList.mem_lookup_iff.mp hk
    rcases List.mem_pair.mp hmem with h | h <;> cases h
    · exact ⟨_, rfl, rfl, by decide⟩
    · exact ⟨_, rfl, rfl, by decide⟩
  · have hmem : (⟨n, v⟩ : Sigma fun _ : List UInt8 => ℕ) ∈ [(⟨[98], 1⟩ : Sigma fun _ : List UInt8 => ℕ), ⟨[97], 0⟩] := AList.mem_lookup_iff.mp hn
    rcases List.mem_pair.mp hmem with h | h <;> cases h
    · exact ⟨_, rfl, rfl, by decide⟩
    · exact ⟨_, rfl, rfl, by decide⟩
  · rw [(twoVrfs_vrf hv).2.1, find_empty] at hfind
    cases hfind
  · rw [(twoVrfs_vrf hv).2.2, find_empty] at hfind
    cases hfind

/-- A move to the other VRF and back, a new index, and the end of the interface. -/
theorem ifaces_consistent_sample :
    Run.Along ifStep IfFree twoVrfs [.getByName .vrfLite 2 0 [101] 1 none, .setIndex 0 7, .updateToNewVrf 2 0 2, .updateToNewVrf 2 0 1, .delete 0] ↔
      ∀ p, p <+: [IfOp.getByName .vrfLite 2 0 [101] 1 none, .setIndex 0 7, .updateToNewVrf 2 0 2, .updateToNewVrf 2 0 1, .delete 0] →
        ∃ t, Run.exec ifStep twoVrfs p = some t ∧ IfacesConsistent t :=
  ifaces_consistent twoVrfs_consistent.1.sound nofun twoVrfs_consistent.2 _ (by decide +kernel)

/-- An interface goes to a VRF in which another one has its name, and is in no tree. Its deletion removes what is not there. -/
theorem ifUpdateToNewVrf_loses_name :
    VrfsConsistent twoVrfs.vrfs ∧ IfacesConsistent twoVrfs ∧
      Run.Along ifStep IfCall twoVrfs [.getByName .netns 2 0 [101] 1 (some [97]), .getByName .netns 2 1 [101] 2 (some [98]), .updateToNewVrf 2 0 2,
        .delete 0] ∧
      (∃ t, Run.exec ifStep twoVrfs [.getByName .netns 2 0 [101] 1 (some [97]), .getByName .netns 2 1 [101] 2 (some [98]), .updateToNewVrf 2 0 2] =
        some t ∧ ¬IfacesConsistent t) ∧
      Run.exec ifStep twoVrfs [.getByName .netns 2 0 [101] 1 (some [97]), .getByName .netns 2 1 [101] 2 (some [98]), .updateToNewVrf 2 0 2,
        .delete 0] = none := by
  refine ⟨twoVrfs_consistent.1, twoVrfs_consistent.2, by decide +kernel, ?_, by decide +kernel⟩
  have hseen : (Run.exec ifStep twoVrfs [.getByName .netns 2 0 [101] 1 (some [97]), .getByName .netns 2 1 [101] 2 (some [98]),
      .updateToNewVrf 2 0 2]).map (fun t => (t.iface 0).map fun ifp => ifnameTree.find t.vrfs (ifp.vrf, ifp.name)) = some (some (some 1)) := by
    decide +kernel
  obtain ⟨t, ht, hseen⟩ := Option.map_eq_some_iff.mp hseen
  obtain ⟨ifp, hi, hfound⟩ := Option.map_eq_some_iff.mp hseen
  refine ⟨t, ht, fun hs => ?_⟩
  have hown := ((ifacesConsistent_iff.mp hs).1 (ifp.vrf, ifp.name) 0).mpr (place_live hi)
  cases hfound.symm.trans hown

end Yjc.Network
