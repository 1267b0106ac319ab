import Yjc.Lib.KeyedSet
import Yjc.Lib.Run
import Mathlib.Algebra.Group.Nat.Defs

/-! The registry of VRFs, in `network/vrf.c`. -/

namespace Yjc.Network
open KeyedSet

/-- `VRF_UNKNOWN` -/
def vrfUnknown : ℕ := 2 ^ 32 - 1

/-- `strlcpy` into a buffer of `size` bytes. -/
def strlcpy (size : ℕ) (s : List UInt8) : List UInt8 := s.take (size - 1)

/-- A VRF, with the trees of its interfaces. Its name is in a buffer of `VRF_NAMSIZ + 1` bytes. -/
structure Vrf where
  vrfId : ℕ
  name : List UInt8
  active : Bool
  configured : Bool
  ifacesByName : Tree (List UInt8) ℕ
  ifacesByIndex : Tree ℤ ℕ
  netnsName : List UInt8
  fits : name.length ≤ 36

/-- The VRFs by their address, and the trees. -/
structure Vrfs where
  vrf : ℕ → Option Vrf
  vrfsById : Tree ℕ ℕ
  vrfsByName : Tree (List UInt8) ℕ

/-- A new VRF, which `calloc` has zeroed. -/
def Vrf.new : Vrf := ⟨vrfUnknown, [], false, false, ∅, ∅, [], Nat.zero_le 36⟩

/-- The identifier of the VRF is known and is not the one that is given. -/
def Vrf.Other (vrf : Vrf) (vrfId : ℕ) : Prop := vrfId ≠ vrfUnknown ∧ vrf.vrfId ≠ vrfUnknown ∧ vrf.vrfId ≠ vrfId

instance (vrf : Vrf) (vrfId : ℕ) : Decidable (vrf.Other vrfId) := inferInstanceAs (Decidable (_ ∧ _ ∧ _))

def Vrf.setName (vrf : Vrf) (name : List UInt8) : Vrf := { vrf with name := strlcpy 37 name, fits := List.length_take_le 36 name }

def vrfDisable (vrf : Vrf) : Vrf := { vrf with active := false }

namespace Vrfs

def vrfLookupByName (s : Vrfs) (name : List UInt8) : Option ℕ := s.vrfsByName.find (strlcpy 37 name)

def vrfLookupById (s : Vrfs) (vrfId : ℕ) : Option ℕ := s.vrfsById.find vrfId

/-- The VRF at `v` becomes `vrf`. -/
def put (s : Vrfs) (v : ℕ) (vrf : Vrf) : Vrfs := { s with vrf := Function.update s.vrf v (some vrf) }

/-- "Set identifier", in `vrf_get`. -/
def setId (s : Vrfs) (v vrfId : ℕ) : Option Vrfs :=
  (s.vrf v).map fun vrf =>
    if vrfId ≠ vrfUnknown ∧ vrf.vrfId = vrfUnknown then
      { s.put v { vrf with vrfId } with vrfsById := s.vrfsById.insert vrfId v }
    else s

/-- "Set name", in `vrf_get`. -/
def setName (s : Vrfs) (v : ℕ) : Option (List UInt8) → Option Vrfs
  | none => some s
  | some name => (s.vrf v).bind fun vrf =>
    if vrf.name ≠ [] ∧ name ≠ vrf.name then
      (s.vrfsByName.remove vrf.name v).map fun t =>
        { s.put v { vrf.setName name with netnsName := strlcpy 36 name } with vrfsByName := t.insert (strlcpy 37 name) v }
    else if vrf.name = [] then
      some { s.put v (vrf.setName name) with vrfsByName := s.vrfsByName.insert (strlcpy 37 name) v }
    else some s

/-- The rest of `vrf_get`, with the VRF that is found or new. -/
def setBoth (s : Vrfs) (v vrfId : ℕ) (name : Option (List UInt8)) : Option (Vrfs × Option ℕ) :=
  (s.setId v vrfId).bind fun s => (s.setName v name).map (·, some v)

/-- `vrf_get` with the address `new` for a VRF it creates. `none` is an access to a VRF that does not live, or the removal from a tree of
what is not in it. -/
def vrfGet (s : Vrfs) (new vrfId : ℕ) (name : Option (List UInt8)) : Option (Vrfs × Option ℕ) :=
  if name = none ∧ vrfId = vrfUnknown then some (s, none)
  else match name.bind s.vrfLookupByName with
    | some v => (s.vrf v).bind fun vrf => if vrf.Other vrfId then some (s, none) else s.setBoth v vrfId name
    | none => match if vrfId ≠ vrfUnknown then s.vrfLookupById vrfId else none with
      | some v => s.setBoth v vrfId name
      | none => (s.put new Vrf.new).setBoth new vrfId name

def vrfUpdate (s : Vrfs) (new newVrfId : ℕ) (name : Option (List UInt8)) : Option (Vrfs × Option ℕ) :=
  match name.bind s.vrfLookupByName with
  | some v => (s.vrf v).bind fun vrf =>
    if vrf.Other newVrfId then
      (s.vrfsById.remove vrf.vrfId v).map fun t =>
        ({ s.put v { vrfDisable vrf with vrfId := newVrfId } with vrfsById := t.insert newVrfId v }, some v)
    else s.vrfGet new newVrfId name
  | none => s.vrfGet new newVrfId name

/-- The first part of `vrf_delete`, up to the identifier. -/
def clearId (s : Vrfs) (v : ℕ) (vrf : Vrf) : Option Vrfs :=
  if vrf.vrfId ≠ vrfUnknown then
    (s.vrfsById.remove vrf.vrfId v).map fun t => { s.put v { vrfDisable vrf with vrfId := vrfUnknown } with vrfsById := t }
  else some (s.put v (vrfDisable vrf))

/-- The last part of `vrf_delete`. -/
def free (s : Vrfs) (v : ℕ) (vrf : Vrf) : Option Vrfs :=
  (if vrf.name ≠ [] then s.vrfsByName.remove vrf.name v else some s.vrfsByName).map fun t =>
    { s with vrf := Function.update s.vrf v none, vrfsByName := t }

def vrfDelete (s : Vrfs) (v : ℕ) : Option Vrfs :=
  (s.vrf v).bind fun vrf => (s.clearId v vrf).bind fun s =>
    if vrf.configured then some s
    else if vrf.ifacesByName.entries ≠ [] then some s
    else s.free v vrf

end Vrfs

/-- Calls of the functions; the rest of the program sets the flags of a VRF and its trees of interfaces. -/
inductive VrfOp
  | get (new vrfId : ℕ) (name : Option (List UInt8))
  | update (new vrfId : ℕ) (name : Option (List UInt8))
  | delete (v : ℕ)
  | touch (v : ℕ) (active configured : Bool) (ifacesByName : Tree (List UInt8) ℕ) (ifacesByIndex : Tree ℤ ℕ)

def vrfStep (s : Vrfs) : VrfOp → Option Vrfs
  | .get new vrfId name => (s.vrfGet new vrfId name).map Prod.fst
  | .update new vrfId name => (s.vrfUpdate new vrfId name).map Prod.fst
  | .delete v => s.vrfDelete v
  | .touch v active configured ifacesByName ifacesByIndex =>
    (s.vrf v).map fun vrf => s.put v { vrf with active, configured, ifacesByName, ifacesByIndex }

/-- A name is not empty and is shorter than `VRF_NAMSIZ`. -/
def VrfName (name : List UInt8) : Prop := name ≠ [] ∧ name.length < 36

instance (name : List UInt8) : Decidable (VrfName name) := inferInstanceAs (Decidable (_ ∧ _))

/-- New addresses are free, and VRFs are passed while they live. -/
def VrfCall (s : Vrfs) : VrfOp → Prop
  | .get new vrfId name => s.vrf new = none ∧ (∀ n ∈ name, VrfName n) ∧ (vrfId < 2 ^ 31 ∨ vrfId = vrfUnknown)
  | .update new vrfId name => s.vrf new = none ∧ (∀ n ∈ name, VrfName n) ∧ (vrfId < 2 ^ 31 ∨ vrfId = vrfUnknown)
  | .delete v => (s.vrf v).isSome
  | .touch v _ _ _ _ => (s.vrf v).isSome

instance (s : Vrfs) : ∀ op, Decidable (VrfCall s op)
  | .get _ _ _ => inferInstanceAs (Decidable (_ ∧ (∀ n ∈ _, VrfName n) ∧ _))
  | .update _ _ _ => inferInstanceAs (Decidable (_ ∧ (∀ n ∈ _, VrfName n) ∧ _))
  | .delete v => inferInstanceAs (Decidable ((s.vrf v).isSome = true))
  | .touch v _ _ _ _ => inferInstanceAs (Decidable ((s.vrf v).isSome = true))

/-- Each VRF is found by its identifier, if that is known, and by its name, if it has one; nothing else is found. -/
structure VrfsConsistent (s : Vrfs) : Prop where
  byId : ∀ v vrf, s.vrf v = some vrf → vrf.vrfId ≠ vrfUnknown → s.vrfLookupById vrf.vrfId = some v
  byName : ∀ v vrf, s.vrf v = some vrf → vrf.name ≠ [] → s.vrfLookupByName vrf.name = some v
  ids : ∀ vrfId v, s.vrfsById.find vrfId = some v → ∃ vrf, s.vrf v = some vrf ∧ vrf.vrfId = vrfId ∧ vrfId ≠ vrfUnknown
  names : ∀ name v, s.vrfsByName.find name = some v → ∃ vrf, s.vrf v = some vrf ∧ vrf.name = name ∧ name ≠ []

/-- Where a VRF that is known by name gets another identifier, no VRF has this one. -/
def IdFree (s : Vrfs) : VrfOp → Prop
  | .get _ vrfId name => ∀ v ∈ name.bind s.vrfLookupByName, ∀ vrf ∈ s.vrf v,
      vrfId ≠ vrfUnknown → vrf.vrfId = vrfUnknown → s.vrfLookupById vrfId = none
  | .update _ vrfId name => ∀ v ∈ name.bind s.vrfLookupByName, ∀ vrf ∈ s.vrf v,
      vrfId ≠ vrfUnknown → vrf.vrfId ≠ vrfId → s.vrfLookupById vrfId = none
  | .delete _ => True
  | .touch _ _ _ _ _ => True

/-! ## The keys of the VRFs -/

def Vrf.idKey (vrf : Vrf) : Option ℕ := if vrf.vrfId = vrfUnknown then none else some vrf.vrfId

def Vrf.nameKey (vrf : Vrf) : Option (List UInt8) := if vrf.name = [] then none else some vrf.name

def Vrfs.IdsOk (s : Vrfs) : Prop := Indexes s.vrfsById.find (keyOf Vrf.idKey s.vrf)

def Vrfs.NamesOk (s : Vrfs) : Prop := Indexes s.vrfsByName.find (keyOf Vrf.nameKey s.vrf)

variable {s t u : Vrfs} {v new vrfId : ℕ} {vrf vrf' : Vrf} {name : Option (List UInt8)} {op : VrfOp}

theorem strlcpy_of_le {size : ℕ} {m : List UInt8} (h : m.length < size) : strlcpy size m = m := List.take_of_length_le (Nat.le_pred_of_lt h)

theorem Vrf.idKey_eq {k : ℕ} : vrf.idKey = some k ↔ vrf.vrfId = k ∧ k ≠ vrfUnknown := by
  rw [Vrf.idKey]
  split_ifs with h
  · exact iff_of_false nofun fun hk => hk.2 (hk.1.symm.trans h)
  · exact ⟨fun heq => ⟨Option.some.inj heq, fun hk => h ((Option.some.inj heq).trans hk)⟩, fun hk => congrArg some hk.1⟩

theorem Vrf.nameKey_eq {n : List UInt8} : vrf.nameKey = some n ↔ vrf.name = n ∧ n ≠ [] := by
  rw [Vrf.nameKey]
  split_ifs with h
  · exact iff_of_false nofun fun hn => hn.2 (hn.1.symm.trans h)
  · exact ⟨fun heq => ⟨Option.some.inj heq, fun hn => h ((Option.some.inj heq).trans hn)⟩, fun hn => congrArg some hn.1⟩

theorem keyOf_eq_some {κ : Type*} {key : Vrf → Option κ} {k : κ} :
    keyOf key s.vrf v = some k ↔ ∃ vrf, s.vrf v = some vrf ∧ key vrf = some k := Option.bind_eq_some_iff

theorem keyOf_live {κ : Type*} {key : Vrf → Option κ} (h : s.vrf v = some vrf) : keyOf key s.vrf v = key vrf := by
  rw [keyOf, h, Option.bind_some]

theorem vrfsConsistent_iff : VrfsConsistent s ↔ s.IdsOk ∧ s.NamesOk := by
  constructor
  · intro h
    constructor
    · intro k v
      simp only [keyOf_eq_some, Vrf.idKey_eq]
      refine ⟨h.ids k v, ?_⟩
      rintro ⟨vrf, hv, rfl, hk⟩
      exact h.byId v vrf hv hk
    · intro n v
      simp only [keyOf_eq_some, Vrf.nameKey_eq]
      refine ⟨h.names n v, ?_⟩
      rintro ⟨vrf, hv, rfl, hn⟩
      have hfound := h.byName v vrf hv hn
      rwa [Vrfs.vrfLookupByName, strlcpy_of_le (Nat.lt_succ_of_le vrf.fits)] at hfound
  · rintro ⟨hids, hnames⟩
    refine ⟨fun v vrf hv hk => ?_, fun v vrf hv hn => ?_, fun k v hk => ?_, fun n v hn => ?_⟩
    · exact (hids vrf.vrfId v).mpr (keyOf_eq_some.mpr ⟨vrf, hv, Vrf.idKey_eq.mpr ⟨rfl, hk⟩⟩)
    · rw [Vrfs.vrfLookupByName, strlcpy_of_le (Nat.lt_succ_of_le vrf.fits)]
      exact (hnames vrf.name v).mpr (keyOf_eq_some.mpr ⟨vrf, hv, Vrf.nameKey_eq.mpr ⟨rfl, hn⟩⟩)
    · obtain ⟨vrf, hv, hkey⟩ := keyOf_eq_some.mp ((hids k v).mp hk)
      exact ⟨vrf, hv, Vrf.idKey_eq.mp hkey⟩
    · obtain ⟨vrf, hv, hkey⟩ := keyOf_eq_some.mp ((hnames n v).mp hn)
      exact ⟨vrf, hv, Vrf.nameKey_eq.mp hkey⟩

/-! ## Setting the identifier and the name -/

/-- What `vrf_get` makes of the VRF `vrf` at `v`. -/
structure SetBoth (s : Vrfs) (v vrfId : ℕ) (vrf vrf' : Vrf) (t : Vrfs) : Prop where
  put : t.vrf = Function.update s.vrf v (some vrf')
  ids : if vrfId ≠ vrfUnknown ∧ vrf.vrfId = vrfUnknown then vrf'.vrfId = vrfId ∧ t.vrfsById = s.vrfsById.insert vrfId v
    else vrf'.vrfId = vrf.vrfId ∧ t.vrfsById = s.vrfsById
  names : t.NamesOk
  byName : vrf'.ifacesByName = vrf.ifacesByName
  byIndex : vrf'.ifacesByIndex = vrf.ifacesByIndex

theorem setName_spec (hs : s.NamesOk) (hv : s.vrf v = some vrf) (hname : ∀ n ∈ name, VrfName n)
    (hfree : ∀ n ∈ name, vrf.name ≠ n → s.vrfLookupByName n = none) :
    ∃ vrf' t, s.setName v name = some t ∧ t.vrf = Function.update s.vrf v (some vrf') ∧ vrf'.vrfId = vrf.vrfId ∧
      t.vrfsById = s.vrfsById ∧ t.NamesOk ∧ vrf'.ifacesByName = vrf.ifacesByName ∧ vrf'.ifacesByIndex = vrf.ifacesByIndex := by
  have hself : s.vrf = Function.update s.vrf v (some vrf) := by rw [← hv, Function.update_eq_self]
  cases name with
  | none => exact ⟨vrf, s, rfl, hself, rfl, rfl, hs, rfl, rfl⟩
  | some n =>
    obtain ⟨hn, hlen⟩ := hname n rfl
    have hcopy : strlcpy 37 n = n := strlcpy_of_le (Nat.lt_succ_of_lt hlen)
    have hfree := hfree n rfl
    rw [Vrfs.vrfLookupByName, hcopy] at hfree
    have hnew : (vrf.setName n).nameKey = some n := Vrf.nameKey_eq.mpr ⟨hcopy, hn⟩
    rw [Vrfs.setName, hv, Option.bind_some, hcopy]
    by_cases hempty : vrf.name = []
    · -- the first name of the VRF
      have hkey : keyOf Vrf.nameKey s.vrf v = none := by rw [keyOf_live hv, Vrf.nameKey, if_pos hempty]
      have hnone := hfree fun heq => hn (heq.symm.trans hempty)
      rw [if_neg fun h => h.1 hempty, if_pos hempty]
      refine ⟨vrf.setName n, _, rfl, rfl, rfl, rfl, ?_, rfl, rfl⟩
      rw [Vrfs.NamesOk]
      dsimp only [Vrfs.put]
      rw [keyOf_update, Option.bind_some, hnew, find_insert]
      exact (hs.put_iff hkey).mpr hnone
    · by_cases heq : n = vrf.name
      · rw [if_neg fun h => h.2 heq, if_neg hempty]
        exact ⟨vrf, s, rfl, hself, rfl, rfl, hs, rfl, rfl⟩
      · -- another name
        have hkey : keyOf Vrf.nameKey s.vrf v = some vrf.name := by rw [keyOf_live hv, Vrf.nameKey, if_neg hempty]
        obtain ⟨names, hremove, hfind⟩ := remove_stored ((hs vrf.name v).mpr hkey)
        have hnone : names.find n = none := by
          rw [hfind, Function.update_of_ne heq]
          exact hfree fun h => heq h.symm
        rw [if_pos ⟨hempty, heq⟩, hremove, Option.map_some]
        refine ⟨{ vrf.setName n with netnsName := strlcpy 36 n }, _, rfl, rfl, rfl, rfl, ?_, rfl, rfl⟩
        have hdrop := hs.drop hkey
        rw [← hfind] at hdrop
        have hput := (hdrop.put_iff (Function.update_self ..)).mpr hnone
        rw [Function.update_idem, ← hnew] at hput
        rw [Vrfs.NamesOk]
        dsimp only [Vrfs.put]
        rwa [keyOf_update, Option.bind_some, find_insert]

theorem namesOk_put (hs : s.NamesOk) (vrf : Vrf) (h : keyOf Vrf.nameKey s.vrf v = vrf.nameKey) (ids : Tree ℕ ℕ) :
    Vrfs.NamesOk { s.put v vrf with vrfsById := ids } := by
  rw [Vrfs.NamesOk]
  dsimp only [Vrfs.put]
  rwa [keyOf_same h]

theorem setBoth_spec (hs : s.NamesOk) (hv : s.vrf v = some vrf) (hname : ∀ n ∈ name, VrfName n)
    (hfree : ∀ n ∈ name, vrf.name ≠ n → s.vrfLookupByName n = none) (vrfId : ℕ) :
    ∃ vrf' t, s.setBoth v vrfId name = some (t, some v) ∧ SetBoth s v vrfId vrf vrf' t := by
  rw [Vrfs.setBoth, Vrfs.setId, hv, Option.map_some, Option.bind_some]
  by_cases hset : vrfId ≠ vrfUnknown ∧ vrf.vrfId = vrfUnknown
  · rw [if_pos hset]
    obtain ⟨vrf', t, ht, hput, hid, hids, hnames, hbyName, hbyIndex⟩ := @setName_spec
      { s.put v { vrf with vrfId } with vrfsById := s.vrfsById.insert vrfId v } v { vrf with vrfId } name
      (namesOk_put hs { vrf with vrfId } (by rw [keyOf_live hv]; rfl) _) (Function.update_self ..) hname hfree
    rw [ht]
    refine ⟨vrf', t, rfl, ?_, ?_, hnames, hbyName, hbyIndex⟩
    · rw [hput]
      exact Function.update_idem ..
    · rw [if_pos hset]
      exact ⟨hid, hids⟩
  · rw [if_neg hset]
    obtain ⟨vrf', t, ht, hput, hid, hids, hnames, hbyName, hbyIndex⟩ := setName_spec hs hv hname hfree
    rw [ht]
    refine ⟨vrf', t, rfl, hput, ?_, hnames, hbyName, hbyIndex⟩
    rw [if_neg hset]
    exact ⟨hid, hids⟩

theorem SetBoth.idsOk_iff (h : SetBoth s v vrfId vrf vrf' t) (hv : s.vrf v = some vrf) (hs : s.IdsOk) :
    t.IdsOk ↔ (vrfId ≠ vrfUnknown → vrf.vrfId = vrfUnknown → s.vrfLookupById vrfId = none) := by
  have hids := h.ids
  rw [Vrfs.IdsOk, h.put]
  split_ifs at hids with hset
  · have hkey : keyOf Vrf.idKey s.vrf v = none := by rw [keyOf_live hv, Vrf.idKey, if_pos hset.2]
    rw [keyOf_update, Option.bind_some, Vrf.idKey_eq.mpr ⟨hids.1, hset.1⟩, hids.2, find_insert, hs.put_iff hkey]
    exact ⟨fun hnone _ _ => hnone, fun hfree => hfree hset.1 hset.2⟩
  · rw [keyOf_same (by rw [keyOf_live hv, Vrf.idKey, Vrf.idKey, hids.1]), hids.2]
    exact iff_of_true hs fun hknown hunknown => absurd ⟨hknown, hunknown⟩ hset

/-! ## `vrf_get` -/

def Vrfs.IdsSound (s : Vrfs) : Prop := Sound s.vrfsById.find (keyOf Vrf.idKey s.vrf)

/-- The name is that of a VRF with another identifier. -/
def Clash (s : Vrfs) (vrfId : ℕ) (name : Option (List UInt8)) : Prop :=
  ∃ v ∈ name.bind s.vrfLookupByName, ∃ vrf ∈ s.vrf v, vrf.Other vrfId

/-- `vrf_get` goes on with the VRF `vrf` at `v`, which it has found or made. -/
structure Got (s : Vrfs) (new vrfId : ℕ) (name : Option (List UInt8)) (u : Vrfs) (v : ℕ) (vrf : Vrf) : Prop where
  base : (u = s ∧ (name.bind s.vrfLookupByName = some v ∨
      (name.bind s.vrfLookupByName = none ∧ vrfId ≠ vrfUnknown ∧ s.vrfLookupById vrfId = some v))) ∨
    (u = s.put new Vrf.new ∧ v = new ∧ vrf = Vrf.new ∧ name.bind s.vrfLookupByName = none ∧
      (vrfId ≠ vrfUnknown → s.vrfLookupById vrfId = none))
  live : u.vrf v = some vrf
  other : ¬vrf.Other vrfId
  free : IdFree s (.get new vrfId name) ↔ (vrfId ≠ vrfUnknown → vrf.vrfId = vrfUnknown → s.vrfLookupById vrfId = none)

theorem Vrfs.NamesOk.live (hs : s.NamesOk) {n : List UInt8} (hn : VrfName n) (hv : s.vrfLookupByName n = some v) :
    ∃ vrf, s.vrf v = some vrf ∧ vrf.name = n := by
  rw [Vrfs.vrfLookupByName, strlcpy_of_le (Nat.lt_succ_of_lt hn.2)] at hv
  obtain ⟨vrf, hvrf, hkey⟩ := keyOf_eq_some.mp ((hs n v).mp hv)
  exact ⟨vrf, hvrf, (Vrf.nameKey_eq.mp hkey).1⟩

theorem vrfGet_spec (hs : s.NamesOk) (hids : s.IdsSound) (hnew : s.vrf new = none) (hname : ∀ n ∈ name, VrfName n) (vrfId : ℕ) :
    (s.vrfGet new vrfId name = some (s, none) ∧ IdFree s (.get new vrfId name) ∧
      ((name = none ∧ vrfId = vrfUnknown) ∨ Clash s vrfId name)) ∨
    ∃ u v vrf vrf' t, s.vrfGet new vrfId name = some (t, some v) ∧ Got s new vrfId name u v vrf ∧ SetBoth u v vrfId vrf vrf' t := by
  rw [Vrfs.vrfGet]
  by_cases hnothing : name = none ∧ vrfId = vrfUnknown
  · rw [if_pos hnothing]
    refine .inl ⟨rfl, fun v hv => ?_, .inl hnothing⟩
    rw [hnothing.1] at hv
    cases hv
  rw [if_neg hnothing]
  cases hfind : name.bind s.vrfLookupByName with
  | some v =>
    obtain ⟨n, rfl, hn⟩ := Option.bind_eq_some_iff.mp hfind
    obtain ⟨vrf, hv, hvname⟩ := hs.live (hname n rfl) hn
    have hfree : IdFree s (.get new vrfId (some n)) ↔ (vrfId ≠ vrfUnknown → vrf.vrfId = vrfUnknown → s.vrfLookupById vrfId = none) := by
      refine ⟨fun h => h v hfind vrf hv, fun h w hw vrf' hvrf' => ?_⟩
      cases hfind.symm.trans hw
      cases hv.symm.trans hvrf'
      exact h
    dsimp only
    rw [hv, Option.bind_some]
    by_cases hother : vrf.Other vrfId
    · rw [if_pos hother]
      exact .inl ⟨rfl, hfree.mpr fun _ h => absurd h hother.2.1, .inr ⟨v, hfind, vrf, hv, hother⟩⟩
    · rw [if_neg hother]
      obtain ⟨vrf', t, ht, hset⟩ := setBoth_spec hs hv hname (fun m hm hne => by cases hm; exact absurd hvname hne) vrfId
      exact .inr ⟨s, v, vrf, vrf', t, ht, ⟨.inl ⟨rfl, .inl hfind⟩, hv, hother, hfree⟩, hset⟩
  | none =>
    have hnone : ∀ n ∈ name, s.vrfLookupByName n = none := by
      rintro n rfl
      exact hfind
    have hfree : IdFree s (.get new vrfId name) := by
      intro v hv
      rw [hfind] at hv
      cases hv
    dsimp only
    cases hid : if vrfId ≠ vrfUnknown then s.vrfLookupById vrfId else none with
    | some v =>
      have hknown : vrfId ≠ vrfUnknown := by
        intro h
        rw [if_neg (not_not_intro h)] at hid
        cases hid
      rw [if_pos hknown] at hid
      obtain ⟨vrf, hv, hkey⟩ := keyOf_eq_some.mp (hids vrfId v hid)
      have hvid := (Vrf.idKey_eq.mp hkey).1
      obtain ⟨vrf', t, ht, hset⟩ := setBoth_spec hs hv hname (fun n hn _ => hnone n hn) vrfId
      refine .inr ⟨s, v, vrf, vrf', t, ht,
        ⟨.inl ⟨rfl, .inr ⟨hfind, hknown, hid⟩⟩, hv, fun h => h.2.2 hvid, iff_of_true hfree fun _ h => ?_⟩, hset⟩
      exact absurd (hvid.symm.trans h) hknown
    | none =>
      obtain ⟨vrf', t, ht, hset⟩ := setBoth_spec (namesOk_put hs Vrf.new (by rw [keyOf, hnew]; rfl) _) (Function.update_self ..) hname (fun n hn _ => hnone n hn) vrfId
      have hidfree (h : vrfId ≠ vrfUnknown) : s.vrfLookupById vrfId = none := by rwa [if_pos h] at hid
      exact .inr ⟨_, new, Vrf.new, vrf', t, ht, ⟨.inr ⟨rfl, rfl, rfl, hfind, hidfree⟩, Function.update_self .., fun h => h.2.1 rfl,
        iff_of_true hfree fun h _ => hidfree h⟩, hset⟩

theorem Got.ids (h : Got s new vrfId name u v vrf) : u.vrfsById = s.vrfsById := by
  rcases h.base with ⟨rfl, -⟩ | ⟨rfl, -⟩ <;> rfl

theorem Got.idsOk (h : Got s new vrfId name u v vrf) (hs : s.IdsOk) (hnew : s.vrf new = none) : u.IdsOk := by
  rcases h.base with ⟨rfl, -⟩ | ⟨rfl, -⟩
  · exact hs
  · rw [Vrfs.IdsOk]
    dsimp only [Vrfs.put]
    rwa [keyOf_same (by rw [keyOf, hnew]; rfl)]

theorem vrfGet_consistent (hs : VrfsConsistent s) (hnew : s.vrf new = none) (hname : ∀ n ∈ name, VrfName n) (vrfId : ℕ) :
    ∃ t r, s.vrfGet new vrfId name = some (t, r) ∧ (VrfsConsistent t ↔ IdFree s (.get new vrfId name)) := by
  obtain ⟨hids, hnames⟩ := vrfsConsistent_iff.mp hs
  rcases vrfGet_spec hnames hids.sound hnew hname vrfId with ⟨hget, hfree, -⟩ | ⟨u, v, vrf, vrf', t, hget, hgot, hset⟩
  · exact ⟨s, none, hget, iff_of_true hs hfree⟩
  · refine ⟨t, some v, hget, ?_⟩
    rw [vrfsConsistent_iff, hset.idsOk_iff hgot.live (hgot.idsOk hids hnew), Vrfs.vrfLookupById, hgot.ids, hgot.free]
    exact and_iff_left hset.names

/-! ## `vrf_update` and `vrf_delete` -/

theorem idFree_update (h : ∀ v ∈ name.bind s.vrfLookupByName, ∀ vrf ∈ s.vrf v, ¬vrf.Other vrfId) :
    IdFree s (.update new vrfId name) ↔ IdFree s (.get new vrfId name) := by
  refine forall₂_congr fun v hv => forall₂_congr fun vrf hvrf => forall_congr' fun hknown => ?_
  have hother := h v hv vrf hvrf
  constructor
  · intro hfree hunknown
    exact hfree fun heq => hknown (heq.symm.trans hunknown)
  · intro hfree hne
    refine hfree ?_
    by_contra hid
    exact hother ⟨hknown, hid, hne⟩

/-- A VRF that is known by name changes its identifier. -/
structure Renumbered (s : Vrfs) (v vrfId : ℕ) (vrf : Vrf) (t : Vrfs) : Prop where
  put : t.vrf = Function.update s.vrf v (some { vrfDisable vrf with vrfId })
  byName : t.vrfsByName = s.vrfsByName
  byId : ∃ ids : Tree ℕ ℕ, ids.find = Function.update s.vrfsById.find vrf.vrfId none ∧ t.vrfsById = ids.insert vrfId v

theorem vrfUpdate_other (hids : s.IdsOk) (hv : s.vrf v = some vrf) (hfind : name.bind s.vrfLookupByName = some v) (hother : vrf.Other vrfId) :
    ∃ t, s.vrfUpdate new vrfId name = some (t, some v) ∧ Renumbered s v vrfId vrf t := by
  have hkey : keyOf Vrf.idKey s.vrf v = some vrf.vrfId := by
    rw [keyOf_live hv]
    exact Vrf.idKey_eq.mpr ⟨rfl, hother.2.1⟩
  obtain ⟨ids, hremove, hfindIds⟩ := remove_stored ((hids vrf.vrfId v).mpr hkey)
  rw [Vrfs.vrfUpdate, hfind]
  dsimp only
  rw [hv, Option.bind_some, if_pos hother, hremove]
  exact ⟨_, rfl, rfl, rfl, ids, hfindIds, rfl⟩

theorem vrfUpdate_get (h : ∀ v ∈ name.bind s.vrfLookupByName, ∃ vrf, s.vrf v = some vrf ∧ ¬vrf.Other vrfId) :
    s.vrfUpdate new vrfId name = s.vrfGet new vrfId name := by
  rw [Vrfs.vrfUpdate]
  cases hfind : name.bind s.vrfLookupByName with
  | none => rfl
  | some v =>
    obtain ⟨vrf, hv, hother⟩ := h v hfind
    dsimp only
    rw [hv, Option.bind_some, if_neg hother]

theorem Renumbered.names (h : Renumbered s v vrfId vrf t) (hv : s.vrf v = some vrf) (hs : s.NamesOk) : t.NamesOk := by
  rw [Vrfs.NamesOk, h.put, h.byName, keyOf_same (by rw [keyOf_live hv]; rfl)]
  exact hs

theorem Renumbered.idsOk_iff (h : Renumbered s v vrfId vrf t) (hv : s.vrf v = some vrf) (hother : vrf.Other vrfId) (hs : s.IdsOk) :
    t.IdsOk ↔ s.vrfLookupById vrfId = none := by
  obtain ⟨ids, hfind, hids⟩ := h.byId
  have hkey : keyOf Vrf.idKey s.vrf v = some vrf.vrfId := by
    rw [keyOf_live hv]
    exact Vrf.idKey_eq.mpr ⟨rfl, hother.2.1⟩
  have hdrop := hs.drop hkey
  rw [← hfind] at hdrop
  have hput := @Indexes.put_iff _ _ _ _ vrfId v _ _ hdrop (Function.update_self ..)
  rw [Function.update_idem, hfind, Function.update_of_ne hother.2.2.symm, ← hfind, ← find_insert, ← hids] at hput
  rw [Vrfs.IdsOk, h.put, keyOf_update, Option.bind_some, Vrf.idKey_eq.mpr ⟨rfl, hother.1⟩, hput]
  rfl

theorem clearId_spec (hids : s.IdsOk) (hnames : s.NamesOk) (hv : s.vrf v = some vrf) :
    ∃ vrf' t, s.clearId v vrf = some t ∧ t.vrf = Function.update s.vrf v (some vrf') ∧ vrf'.name = vrf.name ∧ vrf'.vrfId = vrfUnknown ∧
      t.IdsOk ∧ t.NamesOk := by
  have hname (vrf' : Vrf) (h : vrf'.name = vrf.name) (ids : Tree ℕ ℕ) : Vrfs.NamesOk { s.put v vrf' with vrfsById := ids } :=
    namesOk_put hnames vrf' (by rw [keyOf_live hv, Vrf.nameKey, Vrf.nameKey, h]) ids
  rw [Vrfs.clearId]
  by_cases hid : vrf.vrfId = vrfUnknown
  · rw [if_neg (not_not_intro hid)]
    refine ⟨vrfDisable vrf, _, rfl, rfl, rfl, hid, ?_, hname (vrfDisable vrf) rfl s.vrfsById⟩
    rw [Vrfs.IdsOk]
    dsimp only [Vrfs.put]
    rwa [keyOf_same (by rw [keyOf_live hv]; rfl)]
  · have hkey : keyOf Vrf.idKey s.vrf v = some vrf.vrfId := by
      rw [keyOf_live hv]
      exact Vrf.idKey_eq.mpr ⟨rfl, hid⟩
    obtain ⟨ids, hremove, hfind⟩ := remove_stored ((hids vrf.vrfId v).mpr hkey)
    rw [if_pos hid, hremove]
    refine ⟨{ vrfDisable vrf with vrfId := vrfUnknown }, _, rfl, rfl, rfl, rfl, ?_, hname { vrfDisable vrf with vrfId := vrfUnknown } rfl ids⟩
    rw [Vrfs.IdsOk]
    dsimp only [Vrfs.put]
    rw [keyOf_update, hfind]
    exact hids.drop hkey

theorem free_spec (hids : s.IdsOk) (hnames : s.NamesOk) (hv : s.vrf v = some vrf') (hid : vrf'.vrfId = vrfUnknown)
    (hname : vrf'.name = vrf.name) : ∃ t, s.free v vrf = some t ∧ t.IdsOk ∧ t.NamesOk := by
  have hkeep : Indexes s.vrfsById.find (keyOf Vrf.idKey (Function.update s.vrf v none)) := by
    rw [keyOf_free (by rw [keyOf_live hv, Vrf.idKey, if_pos hid])]
    exact hids
  rw [Vrfs.free]
  by_cases hempty : vrf.name = []
  · rw [if_neg (not_not_intro hempty)]
    refine ⟨_, rfl, hkeep, ?_⟩
    rw [Vrfs.NamesOk]
    dsimp only
    rwa [keyOf_free (by rw [keyOf_live hv, Vrf.nameKey, hname, if_pos hempty])]
  · have hkey : keyOf Vrf.nameKey s.vrf v = some vrf.name := by
      rw [keyOf_live hv]
      exact Vrf.nameKey_eq.mpr ⟨hname, hempty⟩
    obtain ⟨names, hremove, hfind⟩ := remove_stored ((hnames vrf.name v).mpr hkey)
    rw [if_pos hempty, hremove]
    refine ⟨_, rfl, hkeep, ?_⟩
    rw [Vrfs.NamesOk]
    dsimp only
    rw [keyOf_update, hfind]
    exact hnames.drop hkey

theorem vrfDelete_consistent (hs : VrfsConsistent s) (hv : s.vrf v = some vrf) : ∃ t, s.vrfDelete v = some t ∧ VrfsConsistent t := by
  obtain ⟨hids, hnames⟩ := vrfsConsistent_iff.mp hs
  obtain ⟨vrf', u, hclear, hput, hname, hid, huids, hunames⟩ := clearId_spec hids hnames hv
  obtain ⟨t, hfree, ht⟩ := free_spec huids hunames (by rw [hput, Function.update_self]) hid hname
  rw [Vrfs.vrfDelete, hv, Option.bind_some, hclear, Option.bind_some]
  split_ifs
  · exact ⟨u, rfl, vrfsConsistent_iff.mpr ⟨huids, hunames⟩⟩
  · exact ⟨u, rfl, vrfsConsistent_iff.mpr ⟨huids, hunames⟩⟩
  · exact ⟨t, hfree, vrfsConsistent_iff.mpr ht⟩

theorem touch_consistent (hs : VrfsConsistent s) (hv : s.vrf v = some vrf) (hid : vrf'.vrfId = vrf.vrfId) (hname : vrf'.name = vrf.name) :
    VrfsConsistent (s.put v vrf') := by
  obtain ⟨hids, hnames⟩ := vrfsConsistent_iff.mp hs
  refine vrfsConsistent_iff.mpr ⟨?_, namesOk_put hnames vrf' (by rw [keyOf_live hv, Vrf.nameKey, Vrf.nameKey, hname]) _⟩
  rw [Vrfs.IdsOk]
  dsimp only [Vrfs.put]
  rwa [keyOf_same (by rw [keyOf_live hv, Vrf.idKey, Vrf.idKey, hid])]

/-! ## Runs -/

theorem vrfUpdate_cases (hs : s.NamesOk) (hname : ∀ n ∈ name, VrfName n) :
    (∃ v vrf, s.vrf v = some vrf ∧ name.bind s.vrfLookupByName = some v ∧ vrf.Other vrfId) ∨
      (s.vrfUpdate new vrfId name = s.vrfGet new vrfId name ∧
        (IdFree s (.update new vrfId name) ↔ IdFree s (.get new vrfId name))) := by
  by_cases hclash : Clash s vrfId name
  · obtain ⟨v, hfind, vrf, hv, hother⟩ := hclash
    exact .inl ⟨v, vrf, hv, hfind, hother⟩
  · have hother : ∀ v ∈ name.bind s.vrfLookupByName, ∀ vrf ∈ s.vrf v, ¬vrf.Other vrfId :=
      fun v hfind vrf hv h => hclash ⟨v, hfind, vrf, hv, h⟩
    refine .inr ⟨vrfUpdate_get fun v hfind => ?_, idFree_update hother⟩
    obtain ⟨n, hn, hfound⟩ := Option.bind_eq_some_iff.mp hfind
    obtain ⟨vrf, hv, -⟩ := hs.live (hname n hn) hfound
    exact ⟨vrf, hv, hother v hfind vrf hv⟩

theorem idFree_other (hv : s.vrf v = some vrf) (hfind : name.bind s.vrfLookupByName = some v) (hother : vrf.Other vrfId) :
    IdFree s (.update new vrfId name) ↔ s.vrfLookupById vrfId = none := by
  refine ⟨fun h => h v hfind vrf hv hother.1 hother.2.2, fun h w hw vrf' hvrf' _ _ => h⟩

theorem vrfStep_consistent (hs : VrfsConsistent s) (hop : VrfCall s op) :
    ∃ t, vrfStep s op = some t ∧ (VrfsConsistent t ↔ IdFree s op) := by
  cases op with
  | get new vrfId name =>
    obtain ⟨t, r, hget, ht⟩ := vrfGet_consistent hs hop.1 hop.2.1 vrfId
    exact ⟨t, by rw [vrfStep, hget]; rfl, ht⟩
  | update new vrfId name =>
    obtain ⟨hids, hnames⟩ := vrfsConsistent_iff.mp hs
    rw [vrfStep]
    rcases vrfUpdate_cases hnames hop.2.1 with ⟨v, vrf, hv, hfind, hother⟩ | ⟨heq, hcond⟩
    · obtain ⟨t, hupdate, hren⟩ := vrfUpdate_other hids hv hfind hother
      refine ⟨t, by rw [hupdate]; rfl, ?_⟩
      rw [vrfsConsistent_iff, hren.idsOk_iff hv hother hids, idFree_other hv hfind hother]
      exact and_iff_left (hren.names hv hnames)
    · obtain ⟨t, r, hget, ht⟩ := vrfGet_consistent hs hop.1 hop.2.1 vrfId
      exact ⟨t, by rw [heq, hget]; rfl, ht.trans hcond.symm⟩
  | delete v =>
    obtain ⟨vrf, hv⟩ := Option.isSome_iff_exists.mp hop
    obtain ⟨t, ht, hconsistent⟩ := vrfDelete_consistent hs hv
    exact ⟨t, ht, iff_of_true hconsistent trivial⟩
  | touch v active configured ifacesByName ifacesByIndex =>
    obtain ⟨vrf, hv⟩ := Option.isSome_iff_exists.mp hop
    rw [vrfStep, hv]
    exact ⟨_, rfl, iff_of_true (touch_consistent hs hv rfl rfl) trivial⟩

/-- The registry stays consistent exactly in the runs in which no VRF gets the identifier of another one. -/
theorem vrfs_consistent (hs : VrfsConsistent s) (ops : List VrfOp) (hops : Run.Along vrfStep VrfCall s ops) :
    Run.Along vrfStep IdFree s ops ↔ ∀ p, p <+: ops → ∃ t, Run.exec vrfStep s p = some t ∧ VrfsConsistent t :=
  Run.along_iff_safe (fun _ => True) (fun _ _ _ hs hop => by simpa only [true_and] using vrfStep_consistent hs hop) trivial hs hops

/-- No VRFs. -/
def Vrfs.empty : Vrfs := ⟨fun _ => none, ∅, ∅⟩

theorem Vrfs.empty_consistent : VrfsConsistent Vrfs.empty := ⟨nofun, nofun, nofun, nofun⟩

theorem vrfs_consistent_sample :
    Run.Along vrfStep IdFree Vrfs.empty [.get 0 5 (some [97]), .get 1 6 none, .update 2 7 (some [97]), .delete 1] ↔
      ∀ p, p <+: [VrfOp.get 0 5 (some [97]), .get 1 6 none, .update 2 7 (some [97]), .delete 1] →
        ∃ t, Run.exec vrfStep Vrfs.empty p = some t ∧ VrfsConsistent t :=
  vrfs_consistent Vrfs.empty_consistent _ (by decide +kernel)

/-- The second VRF is known by name only, and gets the identifier of the first. Its deletion removes what is not in the tree. -/
theorem vrfGet_takes_id :
    Run.Along vrfStep VrfCall Vrfs.empty [.get 0 5 (some [97]), .get 1 vrfUnknown (some [98]), .get 2 5 (some [98]), .delete 1] ∧
      (∃ t, Run.exec vrfStep Vrfs.empty [.get 0 5 (some [97]), .get 1 vrfUnknown (some [98]), .get 2 5 (some [98])] = some t ∧
        ¬VrfsConsistent t) ∧
      Run.exec vrfStep Vrfs.empty [.get 0 5 (some [97]), .get 1 vrfUnknown (some [98]), .get 2 5 (some [98]), .delete 1] = none := by
  refine ⟨by decide +kernel, ?_, by decide +kernel⟩
  have hseen : (Run.exec vrfStep Vrfs.empty [.get 0 5 (some [97]), .get 1 vrfUnknown (some [98]), .get 2 5 (some [98])]).map
      (fun t => (t.vrfLookupById 5, (t.vrf 1).map Vrf.vrfId)) = some (some 0, some 5) := by decide +kernel
  obtain ⟨t, ht, hseen⟩ := Option.map_eq_some_iff.mp hseen
  obtain ⟨hfound, hid⟩ := Prod.mk.inj hseen
  refine ⟨t, ht, fun hs => ?_⟩
  obtain ⟨vrf, hvrf, hid⟩ := Option.map_eq_some_iff.mp hid
  have := hs.byId 1 vrf hvrf (by rw [hid]; decide)
  rw [hid, hfound] at this
  cases this

end Yjc.Network
