import Yjc.Network.Vrf

/-! The trees of interfaces in the VRFs: the macros of `network/if.h`, and what `vrf_get` leaves of the trees. -/

namespace Yjc.Network
open KeyedSet

/-- One of the two trees of interfaces of a VRF. -/
structure IfTree (κ : Type) where
  tree : Vrf → Tree κ ℕ
  set : Vrf → Tree κ ℕ → Vrf
  tree_set : ∀ vrf t, tree (set vrf t) = t
  vrfId_set : ∀ vrf t, (set vrf t).vrfId = vrf.vrfId
  name_set : ∀ vrf t, (set vrf t).name = vrf.name
  new : tree Vrf.new = ∅

def ifnameTree : IfTree (List UInt8) :=
  ⟨Vrf.ifacesByName, fun vrf t => { vrf with ifacesByName := t }, fun _ _ => rfl, fun _ _ => rfl, fun _ _ => rfl, rfl⟩

def ifindexTree : IfTree ℤ :=
  ⟨Vrf.ifacesByIndex, fun vrf t => { vrf with ifacesByIndex := t }, fun _ _ => rfl, fun _ _ => rfl, fun _ _ => rfl, rfl⟩

/-- A change of the one tree is none of the other. -/
def IfTree.Apart {κ μ : Type} (f : IfTree κ) (g : IfTree μ) : Prop := ∀ vrf t, g.tree (f.set vrf t) = g.tree vrf

theorem ifnameTree_apart : ifnameTree.Apart ifindexTree := fun _ _ => rfl

theorem ifindexTree_apart : ifindexTree.Apart ifnameTree := fun _ _ => rfl

namespace Vrfs
variable {κ : Type} [DecidableEq κ]

/-- The insertion of the interface at `i` into a tree of the VRF at `v`, with the interface that it returns. -/
def rbInsert (f : IfTree κ) (s : Vrfs) (v : ℕ) (k : κ) (i : ℕ) : Option (Vrfs × Option ℕ) :=
  (s.vrf v).map fun vrf => (s.put v (f.set vrf ((f.tree vrf).insert k i)), (f.tree vrf).find k)

def rbRemove (f : IfTree κ) (s : Vrfs) (v : ℕ) (k : κ) (i : ℕ) : Option Vrfs :=
  (s.vrf v).bind fun vrf => ((f.tree vrf).remove k i).map fun t => s.put v (f.set vrf t)

def ifnameRbInsert (s : Vrfs) (v : ℕ) (name : List UInt8) (i : ℕ) : Option (Vrfs × Option ℕ) := s.rbInsert ifnameTree v name i

def ifnameRbRemove (s : Vrfs) (v : ℕ) (name : List UInt8) (i : ℕ) : Option Vrfs := s.rbRemove ifnameTree v name i

def ifindexRbInsert (s : Vrfs) (v : ℕ) (ifindex : ℤ) (i : ℕ) : Option (Vrfs × Option ℕ) := s.rbInsert ifindexTree v ifindex i

def ifindexRbRemove (s : Vrfs) (v : ℕ) (ifindex : ℤ) (i : ℕ) : Option Vrfs := s.rbRemove ifindexTree v ifindex i

end Vrfs

/-! ## The effect on the lookups -/

variable {κ μ : Type} {f : IfTree κ} {g : IfTree μ} {s t u : Vrfs} {v w i new vrfId : ℕ} {k : κ} {vrf : Vrf}
  {name : Option (List UInt8)}

def IfTree.find [DecidableEq κ] (f : IfTree κ) (s : Vrfs) : ℕ × κ → Option ℕ := findIn f.tree s.vrf

structure SameVrfs (s t : Vrfs) : Prop where
  byId : t.vrfsById = s.vrfsById
  byName : t.vrfsByName = s.vrfsByName
  vrfs : ∀ v, (t.vrf v).map (fun vrf => (vrf.vrfId, vrf.name)) = (s.vrf v).map fun vrf => (vrf.vrfId, vrf.name)

theorem SameVrfs.refl (s : Vrfs) : SameVrfs s s := ⟨rfl, rfl, fun _ => rfl⟩

theorem SameVrfs.trans (hst : SameVrfs s t) (htu : SameVrfs t u) : SameVrfs s u :=
  ⟨htu.byId.trans hst.byId, htu.byName.trans hst.byName, fun v => (htu.vrfs v).trans (hst.vrfs v)⟩

theorem SameVrfs.live (h : SameVrfs s t) (hv : s.vrf v = some vrf) : ∃ vrf', t.vrf v = some vrf' ∧ vrf'.vrfId = vrf.vrfId := by
  have hmap := h.vrfs v
  rw [hv, Option.map_some] at hmap
  obtain ⟨vrf', hvrf', heq⟩ := Option.map_eq_some_iff.mp hmap
  exact ⟨vrf', hvrf', (Prod.mk.inj heq).1⟩

theorem SameVrfs.free (h : SameVrfs s t) (hv : s.vrf v = none) : t.vrf v = none := by
  have hmap := h.vrfs v
  rwa [hv, Option.map_none, Option.map_eq_none_iff] at hmap

theorem SameVrfs.keys (h : SameVrfs s t) {α : Type} {key : Vrf → Option α} (key' : ℕ × List UInt8 → Option α)
    (hkey : ∀ vrf, key vrf = key' (vrf.vrfId, vrf.name)) : keyOf key t.vrf = keyOf key s.vrf := by
  have hmap (o : Option Vrf) : o.bind key = (o.map fun vrf => (vrf.vrfId, vrf.name)).bind key' := by
    cases o with
    | none => rfl
    | some vrf => exact hkey vrf
  funext v
  rw [keyOf, hmap, h.vrfs v, ← hmap]
  rfl

theorem SameVrfs.namesOk (h : SameVrfs s t) (hs : s.NamesOk) : t.NamesOk := by
  rw [Vrfs.NamesOk, h.byName, @SameVrfs.keys _ _ h _ Vrf.nameKey (fun p => if p.2 = [] then none else some p.2) fun _ => rfl]
  exact hs

theorem SameVrfs.idsSound (h : SameVrfs s t) (hs : s.IdsSound) : t.IdsSound := by
  rw [Vrfs.IdsSound, h.byId, @SameVrfs.keys _ _ h _ Vrf.idKey (fun p => if p.1 = vrfUnknown then none else some p.1) fun _ => rfl]
  exact hs

theorem sameVrfs_set (hv : s.vrf v = some vrf) (tree : Tree κ ℕ) : SameVrfs s (s.put v (f.set vrf tree)) := by
  refine ⟨rfl, rfl, fun w => ?_⟩
  dsimp only [Vrfs.put]
  by_cases hw : w = v
  · subst hw
    rw [Function.update_self, hv, Option.map_some, Option.map_some, f.vrfId_set, f.name_set]
  · rw [Function.update_of_ne hw]

theorem find_apart [DecidableEq μ] (hfg : f.Apart g) (hv : s.vrf v = some vrf) (tree : Tree κ ℕ) : g.find (s.put v (f.set vrf tree)) = g.find s := by
  refine findIn_same fun k => ?_
  rw [findIn_of hv, hfg]

variable [DecidableEq κ]

theorem IfTree.find_live (h : f.find s (v, k) = some i) : ∃ vrf, s.vrf v = some vrf ∧ (f.tree vrf).find k = some i :=
  Option.bind_eq_some_iff.mp h

theorem rbRemove_spec [DecidableEq μ] (hfg : f.Apart g) (h : f.find s (v, k) = some i) :
    ∃ t, s.rbRemove f v k i = some t ∧ SameVrfs s t ∧ f.find t = Function.update (f.find s) (v, k) none ∧ g.find t = g.find s := by
  obtain ⟨vrf, hv, hk⟩ := IfTree.find_live h
  obtain ⟨tree, hremove, hfind⟩ := remove_stored hk
  rw [Vrfs.rbRemove, hv, Option.bind_some, hremove]
  refine ⟨_, rfl, sameVrfs_set hv tree, ?_, find_apart hfg hv tree⟩
  exact findIn_update hv (by rw [f.tree_set, hfind])

theorem rbInsert_spec [DecidableEq μ] (hfg : f.Apart g) (hv : s.vrf v = some vrf) (k : κ) (i : ℕ) :
    ∃ t, s.rbInsert f v k i = some (t, f.find s (v, k)) ∧ SameVrfs s t ∧ f.find t = putFree (f.find s) (v, k) i ∧ g.find t = g.find s := by
  have hfound : (f.tree vrf).find k = f.find s (v, k) := (findIn_of hv k).symm
  rw [Vrfs.rbInsert, hv, Option.map_some, hfound]
  refine ⟨_, rfl, sameVrfs_set hv _, ?_, find_apart hfg hv _⟩
  exact findIn_put hv (by rw [f.tree_set, find_insert])

variable {key : ℕ → Option (ℕ × κ)}

theorem rbRemove_indexes [DecidableEq μ] (hfg : f.Apart g) (h : Indexes (f.find s) key) (hkey : key i = some (v, k)) :
    ∃ t, s.rbRemove f v k i = some t ∧ SameVrfs s t ∧ Indexes (f.find t) (Function.update key i none) ∧ g.find t = g.find s := by
  obtain ⟨t, ht, hsame, hfind, hother⟩ := rbRemove_spec hfg ((h (v, k) i).mpr hkey)
  refine ⟨t, ht, hsame, ?_, hother⟩
  rw [hfind]
  exact h.drop hkey

theorem rbInsert_indexes [DecidableEq μ] (hfg : f.Apart g) (h : Indexes (f.find s) key) (hkey : key i = none) (hv : s.vrf v = some vrf) (k : κ) :
    ∃ t, s.rbInsert f v k i = some (t, f.find s (v, k)) ∧ SameVrfs s t ∧
      (Indexes (f.find t) (Function.update key i (some (v, k))) ↔ f.find s (v, k) = none) ∧ g.find t = g.find s := by
  obtain ⟨t, ht, hsame, hfind, hother⟩ := rbInsert_spec hfg hv k i
  refine ⟨t, ht, hsame, ?_, hother⟩
  rw [hfind]
  exact h.put_iff hkey

theorem Got.find (h : Got s new vrfId name u v vrf) (f : IfTree κ) (hnew : s.vrf new = none) : f.find u = f.find s := by
  rcases h.base with ⟨rfl, -⟩ | ⟨rfl, -⟩
  · rfl
  · refine findIn_same fun k => ?_
    rw [findIn, hnew, Option.bind_none, f.new, find_empty]

theorem SetBoth.find {vrf' : Vrf} (h : SetBoth s v vrfId vrf vrf' t) (hv : s.vrf v = some vrf) :
    ifnameTree.find t = ifnameTree.find s ∧ ifindexTree.find t = ifindexTree.find s := by
  constructor
  · rw [IfTree.find, h.put]
    exact findIn_same fun k => by rw [findIn_of hv]; exact congrArg (Tree.find · k) h.byName.symm
  · rw [IfTree.find, h.put]
    exact findIn_same fun k => by rw [findIn_of hv]; exact congrArg (Tree.find · k) h.byIndex.symm

/-- What holds of the VRFs also when two of them share an identifier. -/
structure Vrfs.Sound (s : Vrfs) : Prop where
  names : s.NamesOk
  ids : s.IdsSound

theorem VrfsConsistent.sound (h : VrfsConsistent s) : s.Sound :=
  ⟨(vrfsConsistent_iff.mp h).2, (vrfsConsistent_iff.mp h).1.sound⟩

theorem SameVrfs.sound (h : SameVrfs s t) (hs : s.Sound) : t.Sound := ⟨h.namesOk hs.names, h.idsSound hs.ids⟩

theorem Got.idsSound (h : Got s new vrfId name u v vrf) (hs : s.IdsSound) (hnew : s.vrf new = none) : u.IdsSound := by
  rcases h.base with ⟨rfl, -⟩ | ⟨rfl, -⟩
  · exact hs
  · rw [Vrfs.IdsSound]
    dsimp only [Vrfs.put]
    rwa [keyOf_same (by rw [keyOf, hnew]; rfl)]

theorem SetBoth.idsSound {vrf' : Vrf} (h : SetBoth s v vrfId vrf vrf' t) (hv : s.vrf v = some vrf) (hs : s.IdsSound) : t.IdsSound := by
  have hids := h.ids
  rw [Vrfs.IdsSound, h.put]
  split_ifs at hids with hset
  · have hkey : keyOf Vrf.idKey s.vrf v = none := by rw [keyOf_live hv, Vrf.idKey, if_pos hset.2]
    rw [keyOf_update, Option.bind_some, Vrf.idKey_eq.mpr ⟨hids.1, hset.1⟩, hids.2, find_insert]
    exact hs.put hkey vrfId
  · rw [keyOf_same (by rw [keyOf_live hv, Vrf.idKey, Vrf.idKey, hids.1]), hids.2]
    exact hs

/-- Of the VRF that `vrf_get` returns: it has the identifier that is given, and was found by its name or by its identifier, or is new. -/
structure Returned (s : Vrfs) (new vrfId : ℕ) (name : Option (List UInt8)) (t : Vrfs) (v : ℕ) : Prop where
  sound : t.Sound
  ifnames : ifnameTree.find t = ifnameTree.find s
  ifindices : ifindexTree.find t = ifindexTree.find s
  live : ∃ vrf, t.vrf v = some vrf ∧ (vrfId ≠ vrfUnknown → vrf.vrfId = vrfId)
  origin : name.bind s.vrfLookupByName = some v ∨
    (name.bind s.vrfLookupByName = none ∧ vrfId ≠ vrfUnknown ∧ s.vrfLookupById vrfId = some v) ∨
    (name.bind s.vrfLookupByName = none ∧ v = new ∧ (vrfId ≠ vrfUnknown → s.vrfLookupById vrfId = none))

theorem vrfGet_returned (hs : s.Sound) (hnew : s.vrf new = none) (hname : ∀ n ∈ name, VrfName n) (hgiven : name ≠ none ∨ vrfId ≠ vrfUnknown)
    (hclash : ¬Clash s vrfId name) : ∃ t v, s.vrfGet new vrfId name = some (t, some v) ∧ Returned s new vrfId name t v := by
  rcases vrfGet_spec hs.names hs.ids hnew hname vrfId with ⟨-, -, hnull⟩ | ⟨u, v, vrf, vrf', t, hget, hgot, hset⟩
  · rcases hnull with ⟨hnone, hunknown⟩ | hnull
    · exact absurd hgiven (not_or.mpr ⟨not_not_intro hnone, not_not_intro hunknown⟩)
    · exact absurd hnull hclash
  · obtain ⟨hnames, hindices⟩ := hset.find hgot.live
    refine ⟨t, v, hget, ⟨hset.names, hset.idsSound hgot.live (hgot.idsSound hs.ids hnew)⟩, hnames.trans (hgot.find _ hnew),
      hindices.trans (hgot.find _ hnew), ⟨vrf', by rw [hset.put, Function.update_self], fun hknown => ?_⟩, ?_⟩
    · have hids := hset.ids
      split_ifs at hids with hsetId
      · exact hids.1
      · by_contra hne
        exact hgot.other ⟨hknown, fun h => hsetId ⟨hknown, h⟩, hids.1 ▸ hne⟩
    · rcases hgot.base with ⟨-, hfound⟩ | ⟨-, rfl, -, hnone, hfree⟩
      · exact hfound.imp_right .inl
      · exact .inr (.inr ⟨hnone, rfl, hfree⟩)

end Yjc.Network
