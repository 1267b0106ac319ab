import Yjc.Network.Interface

/-! When `if_set_index`, in `network/if.c`, refuses an index. -/

namespace Yjc.Network
open KeyedSet

/-- Calls of the functions that make interfaces and VRFs, number them and delete VRFs. -/
inductive IndexOp
  | ifGetByName (backend : VrfBackend) (newVrf new : ℕ) (name : List UInt8) (vrfId : ℕ) (vrfName : Option (List UInt8))
  | ifSetIndex (i : ℕ) (ifindex : ℤ)
  | vrfGet (new vrfId : ℕ) (name : Option (List UInt8))
  | vrfUpdate (new vrfId : ℕ) (name : Option (List UInt8))
  | vrfDelete (v : ℕ)

/-- A call that the VRFs alone see. -/
def Ifaces.onVrfs (s : Ifaces) (op : VrfOp) : Option Ifaces := (vrfStep s.vrfs op).map fun vrfs => { s with vrfs }

def indexStep (s : Ifaces) : IndexOp → Option Ifaces
  | .ifGetByName backend newVrf new name vrfId vrfName => ifStep s (.getByName backend newVrf new name vrfId vrfName)
  | .ifSetIndex i ifindex => ifStep s (.setIndex i ifindex)
  | .vrfGet new vrfId name => s.onVrfs (.get new vrfId name)
  | .vrfUpdate new vrfId name => s.onVrfs (.update new vrfId name)
  | .vrfDelete v => s.onVrfs (.delete v)

/-- Another interface of the VRF of `ifp` has the index. -/
def Taken (s : Ifaces) (i : ℕ) (ifp : Iface) (ifindex : ℤ) : Prop :=
  ifindex ≠ ifindexInternal ∧ ∃ j other, j ≠ i ∧ s.iface j = some other ∧ other.vrf = ifp.vrf ∧ other.ifindex = ifindex

/-- A call that returns -1 has left the index and the tree of indices as they were, and it returns -1 where the index is taken. -/
structure Refused (s : Ifaces) (i : ℕ) (ifp : Iface) (ifindex : ℤ) (t : Ifaces) (r : ℤ) : Prop where
  unchanged : r = -1 → (t.iface i).map Iface.ifindex = some ifp.ifindex ∧
    (t.vrfs.vrf ifp.vrf).map Vrf.ifacesByIndex = (s.vrfs.vrf ifp.vrf).map Vrf.ifacesByIndex
  taken : Taken s i ifp ifindex → r = -1

/-- `if_set_index` of an interface returns, and refuses as it should. -/
def Refuses (s : Ifaces) (i : ℕ) (ifindex : ℤ) : Prop :=
  ∀ ifp, s.iface i = some ifp → ∃ t r, s.ifSetIndex i ifindex = some (t, r) ∧ Refused s i ifp ifindex t r

/-- The interface is in the tree of the VRF under its own index, if it has one, and the tree does not have the new index. -/
structure FreeIndex (vrf : Vrf) (i : ℕ) (own ifindex : ℤ) : Prop where
  stored : own ≠ ifindexInternal → vrf.ifacesByIndex.find own = some i
  free : ifindex ≠ ifindexInternal → vrf.ifacesByIndex.find ifindex = none

/-- The lookup with the identifier of the VRF finds the index, or it is taken neither by an interface nor in the tree of the VRF. -/
def IndexSeen (s : Ifaces) (i : ℕ) (ifindex : ℤ) : Prop :=
  ∀ ifp, s.iface i = some ifp →
    if ifp.ifindex = ifindex then ¬Taken s i ifp ifindex
    else ∃ vrf, s.vrfs.vrf ifp.vrf = some vrf ∧ ((∃ j, s.ifLookupByIfindex ifindex vrf.vrfId = some (some j)) ∨
      s.ifLookupByIfindex ifindex vrf.vrfId = some none ∧ ¬Taken s i ifp ifindex ∧ FreeIndex vrf i ifp.ifindex ifindex)

variable {s t : Ifaces} {i v : ℕ} {ifp : Iface} {vrf : Vrf} {ifindex own : ℤ} {u : Vrfs}

/-! ## The trees -/

theorem removeIndex_eq (hv : u.vrf v = some vrf) : u.removeIndex v own i =
    if own ≠ ifindexInternal then (vrf.ifacesByIndex.remove own i).map fun t => u.put v { vrf with ifacesByIndex := t } else some u := by
  rw [Vrfs.removeIndex, Vrfs.ifindexRbRemove, Vrfs.rbRemove, hv, Option.bind_some]
  rfl

theorem insertIndex_eq (hv : u.vrf v = some vrf) (hk : ifindex ≠ ifindexInternal) : u.insertIndex v ifindex i =
    some (u.put v { vrf with ifacesByIndex := vrf.ifacesByIndex.insert ifindex i }, vrf.ifacesByIndex.find ifindex) := by
  rw [Vrfs.insertIndex, if_pos hk, Vrfs.ifindexRbInsert, Vrfs.rbInsert, hv, Option.map_some]
  rfl

theorem removeIndex_live (hv : u.vrf v = some vrf) (hstored : own ≠ ifindexInternal → vrf.ifacesByIndex.find own = some i) :
    ∃ w vrf', u.removeIndex v own i = some w ∧ w.vrf v = some vrf' ∧ ∀ k ≠ own, vrf'.ifacesByIndex.find k = vrf.ifacesByIndex.find k := by
  rw [removeIndex_eq hv]
  by_cases hown : own = ifindexInternal
  · rw [if_neg (not_not_intro hown)]
    exact ⟨u, vrf, rfl, hv, fun _ _ => rfl⟩
  · obtain ⟨tree, hremove, hfind⟩ := remove_stored (hstored hown)
    rw [if_pos hown, hremove]
    exact ⟨_, _, rfl, Function.update_self .., fun k hk => by dsimp only; rw [hfind, Function.update_of_ne hk]⟩

/-! ## The branches of `if_set_index` -/

theorem ifSetIndex_same (hi : s.iface i = some ifp) (h : ifp.ifindex = ifindex) : s.ifSetIndex i ifindex = some (s, 0) := by
  rw [Ifaces.ifSetIndex, hi, Option.bind_some, if_pos h]

theorem ifSetIndex_live (hi : s.iface i = some ifp) (hne : ifp.ifindex ≠ ifindex) {r : Ifaces × ℤ} (h : s.ifSetIndex i ifindex = some r) :
    ∃ vrf found, s.vrfs.vrf ifp.vrf = some vrf ∧ s.ifLookupByIfindex ifindex vrf.vrfId = some found := by
  rw [Ifaces.ifSetIndex, hi, Option.bind_some, if_neg hne] at h
  obtain ⟨vrf, hv, h⟩ := Option.bind_eq_some_iff.mp h
  obtain ⟨found, hfound, -⟩ := Option.bind_eq_some_iff.mp h
  exact ⟨vrf, found, hv, hfound⟩

theorem ifSetIndex_found (hi : s.iface i = some ifp) (hne : ifp.ifindex ≠ ifindex) (hv : s.vrfs.vrf ifp.vrf = some vrf) {j : ℕ}
    (hfound : s.ifLookupByIfindex ifindex vrf.vrfId = some (some j)) : s.ifSetIndex i ifindex = some (s, -1) := by
  rw [Ifaces.ifSetIndex, hi, Option.bind_some, if_neg hne, hv, Option.bind_some, hfound, Option.bind_some, if_pos (by simp)]

theorem ifSetIndex_lost (hi : s.iface i = some ifp) (hne : ifp.ifindex ≠ ifindex) (hv : s.vrfs.vrf ifp.vrf = some vrf)
    (hfound : s.ifLookupByIfindex ifindex vrf.vrfId = some none) (hown : ifp.ifindex ≠ ifindexInternal)
    (hlost : vrf.ifacesByIndex.find ifp.ifindex ≠ some i) : s.ifSetIndex i ifindex = none := by
  rw [Ifaces.ifSetIndex, hi, Option.bind_some, if_neg hne, hv, Option.bind_some, hfound, Option.bind_some, if_neg (not_not_intro rfl),
    removeIndex_eq hv, if_pos hown, Tree.remove, if_neg hlost, Option.map_none, Option.bind_none]

theorem ifSetIndex_unseen (hi : s.iface i = some ifp) (hne : ifp.ifindex ≠ ifindex) (hv : s.vrfs.vrf ifp.vrf = some vrf)
    (hfound : s.ifLookupByIfindex ifindex vrf.vrfId = some none)
    (hstored : ifp.ifindex ≠ ifindexInternal → vrf.ifacesByIndex.find ifp.ifindex = some i) :
    ∃ t r, s.ifSetIndex i ifindex = some (t, r) ∧ (t.iface i).map Iface.ifindex = some ifindex ∧
      (r = -1 ↔ ifindex ≠ ifindexInternal ∧ vrf.ifacesByIndex.find ifindex ≠ none) := by
  obtain ⟨w, vrf', hw, hvw, hothers⟩ := removeIndex_live hv hstored
  have hset (vrfs : Vrfs) : ((s.put vrfs i { ifp with ifindex }).iface i).map Iface.ifindex = some ifindex := by
    dsimp only [Ifaces.put]
    rw [Function.update_self, Option.map_some]
  rw [Ifaces.ifSetIndex, hi, Option.bind_some, if_neg hne, hv, Option.bind_some, hfound, Option.bind_some, if_neg (not_not_intro rfl),
    hw, Option.bind_some]
  by_cases hk : ifindex = ifindexInternal
  · rw [Vrfs.insertIndex, if_neg (not_not_intro hk), Option.map_some]
    exact ⟨_, _, rfl, hset _, iff_of_false (by decide) fun h => h.1 hk⟩
  · rw [insertIndex_eq hvw hk, hothers ifindex hne.symm, Option.map_some]
    refine ⟨_, _, rfl, hset _, ?_⟩
    split_ifs with htaken
    · exact iff_of_true rfl ⟨hk, htaken⟩
    · exact iff_of_false (by decide) fun h => htaken h.2

theorem refuses_iff : Refuses s i ifindex ↔ IndexSeen s i ifindex := by
  refine forall₂_congr fun ifp hi => ?_
  split_ifs with hsame
  · rw [ifSetIndex_same hi hsame]
    constructor
    · rintro ⟨t, r, hret, h⟩ htaken
      cases hret
      exact absurd (h.taken htaken) (by decide)
    · exact fun hfree => ⟨s, 0, rfl, fun h => absurd h (by decide), fun htaken => absurd htaken hfree⟩
  constructor
  · rintro ⟨t, r, hret, h⟩
    obtain ⟨vrf, found, hv, hfound⟩ := ifSetIndex_live hi hsame hret
    refine ⟨vrf, hv, ?_⟩
    cases found with
    | some j => exact .inl ⟨j, hfound⟩
    | none =>
      -- the removal went through, so the interface was in the tree
      have hstored : ifp.ifindex ≠ ifindexInternal → vrf.ifacesByIndex.find ifp.ifindex = some i := by
        intro hown
        by_contra hlost
        cases (ifSetIndex_lost hi hsame hv hfound hown hlost).symm.trans hret
      obtain ⟨t', r', hret', hset, hr⟩ := ifSetIndex_unseen hi hsame hv hfound hstored
      cases hret'.symm.trans hret
      -- the index has changed, so that -1 would be wrong
      have hok : r ≠ -1 := by
        intro hfail
        have hindex := (h.unchanged hfail).1
        rw [hset] at hindex
        exact hsame (Option.some.inj hindex).symm
      refine .inr ⟨hfound, fun htaken => hok (h.taken htaken), hstored, fun hk => ?_⟩
      by_contra hhas
      exact hok (hr.mpr ⟨hk, hhas⟩)
  · rintro ⟨vrf, hv, ⟨j, hfound⟩ | ⟨hfound, hfree, hindex⟩⟩
    · refine ⟨s, -1, ifSetIndex_found hi hsame hv hfound, fun _ => ⟨?_, rfl⟩, fun _ => rfl⟩
      rw [hi, Option.map_some]
    · obtain ⟨t, r, hret, -, hr⟩ := ifSetIndex_unseen hi hsame hv hfound hindex.stored
      refine ⟨t, r, hret, fun hfail => ?_, fun htaken => absurd htaken hfree⟩
      obtain ⟨hk, hhas⟩ := hr.mp hfail
      exact absurd (hindex.free hk) hhas

/-- In a registry in which every interface is found, an index is seen exactly where setting it leaves every interface found. -/
theorem indexSeen_iff_free (hs : Ready s) (hc : IfacesConsistent s) : IndexSeen s i ifindex ↔ IfFree s (.setIndex i ifindex) := by
  refine forall₂_congr fun ifp hi => ?_
  obtain ⟨vrf, hv, -⟩ := hc.byName i ifp hi
  have hown : ifp.ifindex ≠ ifindexInternal → vrf.ifacesByIndex.find ifp.ifindex = some i := hc.byIndex i ifp vrf hi hv
  have htree : ifindexTree.find s.vrfs (ifp.vrf, ifindex) = vrf.ifacesByIndex.find ifindex := findIn_of hv ifindex
  have hfound (htaken : Taken s i ifp ifindex) : ifindex ≠ ifindexInternal ∧ ∃ j ≠ i, vrf.ifacesByIndex.find ifindex = some j := by
    obtain ⟨hk, j, other, hji, hj, hvrf, rfl⟩ := htaken
    exact ⟨hk, j, hji, hc.byIndex j other vrf hj (by rw [hvrf, hv]) hk⟩
  split_ifs with hsame
  · refine iff_of_true (fun htaken => ?_) fun vrf' _ hne => absurd hsame hne
    obtain ⟨hk, j, hji, hj⟩ := hfound htaken
    subst hsame
    exact hji (Option.some.inj (hj.symm.trans (hown hk)))
  obtain ⟨found, hlookup⟩ := hs.lookup ifindex vrf.vrfId
  constructor
  · rintro ⟨vrf', hv', h⟩ vrf'' hv'' - hk hnone
    cases hv.symm.trans hv'
    cases hv.symm.trans hv''
    rcases h with ⟨j, hj⟩ | ⟨-, -, hfree⟩
    · cases hj.symm.trans hnone
    · rw [htree, hfree.free hk]
  · intro h
    refine ⟨vrf, hv, ?_⟩
    cases found with
    | some j => exact .inl ⟨j, hlookup⟩
    | none =>
      have hfree (hk : ifindex ≠ ifindexInternal) : vrf.ifacesByIndex.find ifindex = none := htree ▸ h vrf hv hsame hk hlookup
      refine .inr ⟨hlookup, fun htaken => ?_, hown, hfree⟩
      obtain ⟨hk, j, -, hj⟩ := hfound htaken
      cases (hfree hk).symm.trans hj

/-- In a run from any state each call refuses as it should exactly when each is made with an index that is seen. -/
theorem ifSetIndex_refuses_iff (s : Ifaces) (ops : List IndexOp) :
    Run.Along indexStep (fun t op => ∀ i ifindex, op = .ifSetIndex i ifindex → IndexSeen t i ifindex) s ops ↔
      ∀ p i ifindex, p ++ [.ifSetIndex i ifindex] <+: ops → ∀ t, Run.exec indexStep s p = some t → Refuses t i ifindex := by
  rw [Run.along_iff_forall]
  constructor
  · intro h p i ifindex hp t ht
    exact refuses_iff.mpr (h p _ hp t ht i ifindex rfl)
  · rintro h p op hp t ht i ifindex rfl
    exact refuses_iff.mp (h p i ifindex hp t ht)

/-- No VRFs and no interfaces. -/
def Ifaces.empty : Ifaces := ⟨.empty, fun _ => none⟩

/-- Two interfaces with the indices 7 and 8, in a VRF that has lost its identifier. -/
def lostId : List IndexOp := [.vrfGet 0 1 (some [97]), .ifGetByName .netns 1 0 [101] 1 (some [97]), .ifGetByName .netns 1 1 [102] 1 (some [97]),
  .ifSetIndex 0 7, .ifSetIndex 1 8, .vrfDelete 0]

/-- The second interface is refused the index 7, but has it, and is in the tree no more. -/
theorem ifSetIndex_fails_late :
    ∃ t, Run.exec indexStep .empty lostId = some t ∧ ¬Refuses t 1 7 ∧
      ∃ u, t.ifSetIndex 1 7 = some (u, -1) ∧ (t.iface 1).map Iface.ifindex = some 8 ∧ (u.iface 1).map Iface.ifindex = some 7 ∧
        (t.vrfs.vrf 0).map (fun vrf => vrf.ifacesByIndex.find 8) = some (some 1) ∧
        (u.vrfs.vrf 0).map (fun vrf => vrf.ifacesByIndex.find 8) = some none := by
  have hrun : (Run.exec indexStep .empty lostId).isSome = true := by decide +kernel
  obtain ⟨t, ht⟩ := Option.isSome_iff_exists.mp hrun
  have hseen : (Run.exec indexStep .empty lostId).map (fun t => ((t.iface 1).map Iface.ifindex,
      (t.vrfs.vrf 0).map fun vrf => vrf.ifacesByIndex.find 8)) = some (some 8, some (some 1)) := by decide +kernel
  have hafter : (Run.exec indexStep .empty lostId).map (fun t => (t.ifSetIndex 1 7).map fun (u, r) => (r, (u.iface 1).map Iface.ifindex,
      (u.vrfs.vrf 0).map fun vrf => vrf.ifacesByIndex.find 8)) = some (some (-1, some 7, some none)) := by decide +kernel
  rw [ht, Option.map_some, Option.some_inj] at hseen hafter
  obtain ⟨hindex, htree⟩ := Prod.mk.inj hseen
  obtain ⟨⟨u, r⟩, hu, hafter⟩ := Option.map_eq_some_iff.mp hafter
  simp only [Prod.mk.injEq] at hafter
  obtain ⟨rfl, hindex', htree'⟩ := hafter
  refine ⟨t, ht, fun h => ?_, u, hu, hindex, hindex', htree, htree'⟩
  obtain ⟨ifp, hi, hown⟩ := Option.map_eq_some_iff.mp hindex
  obtain ⟨w, r, hw, hrefused⟩ := h ifp hi
  cases hu.symm.trans hw
  have hkept := (hrefused.unchanged rfl).1
  rw [hindex', hown] at hkept
  cases hkept

end Yjc.Network
