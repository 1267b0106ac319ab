import Yjc.Container.ListLookup
import Yjc.Network.Connected

/-! The list of the connected addresses of an interface, in `network/if.c`. -/

namespace Yjc.Network
open Mem Links

/-- `ifp->connected`, a list of the addresses of entries, and the entries in memory. -/
structure IfConnected where
  connected : Linklist ℕ
  entry : ℕ → Option Connected

/-- If two connected address has same prefix return 1. -/
def connectedSamePrefix (p1 p2 : Prefix) : Bool :=
  p1.family = p2.family ∧ (p1.family = afInet ∧ sAddr p1 = sAddr p2 ∨ p1.family = afInet6 ∧ slice p1.u 0 16 = slice p2.u 0 16)

namespace IfConnected

/-- What `if_new` makes: the list has no `cmp`. -/
def ifNew : IfConnected := ⟨Linklist.create (fun _ => none) (fun _ => none) fun _ => 0, fun _ => none⟩

/-- `connected_add_by_prefix` with the new entry at `ifc` and its node at `node`. -/
def addByPrefix (s : IfConnected) (ifc node : ℕ) (p : Prefix) (destination : Option Prefix) : Option IfConnected :=
  (s.connected.add node ifc).map fun r => ⟨r.2, Function.update s.entry ifc (some ⟨0, some p, destination⟩)⟩

/-- The loop of `connected_delete_by_prefix`. `none` is an access to an entry that is not in memory, or to `NULL`. -/
def deleteLoop (s : IfConnected) (p : Prefix) : ℕ → Option ℕ → Option (IfConnected × Option ℕ)
  | 0, _ => none
  | _ + 1, none => some (s, none)
  | fuel + 1, some node => do
    let ifc := s.connected.data node
    let c ← s.entry ifc
    if connectedSamePrefix (← c.address) p then
      (s.connected.listnodeDelete none ifc).map fun connected => ({ s with connected }, some ifc)
    else deleteLoop s p fuel (s.connected.next node)

def deleteByPrefix (s : IfConnected) (p : Prefix) : Option (IfConnected × Option ℕ) :=
  s.deleteLoop p (s.connected.count + 1) s.connected.head

def listed (s : IfConnected) : List ℕ := s.connected.nodes.map s.connected.data

end IfConnected

inductive ConnectedOp
  | addByPrefix (ifc node : ℕ) (p : Prefix) (destination : Option Prefix)
  | deleteByPrefix (p : Prefix)
deriving DecidableEq

/-- The interface, and the entries that were added and not deleted, with the addresses they were added with; and what the last deletion
has returned, and the entry it was for. -/
structure Tracked where
  ifp : IfConnected
  kept : List (ℕ × Prefix)
  returned : Option ℕ
  first : Option ℕ

def Tracked.ifNew : Tracked := ⟨.ifNew, [], none, none⟩

def trackedStep (s : Tracked) : ConnectedOp → Option Tracked
  | .addByPrefix ifc node p destination =>
    (s.ifp.addByPrefix ifc node p destination).map fun ifp => ⟨ifp, s.kept ++ [(ifc, p)], none, none⟩
  | .deleteByPrefix p => (s.ifp.deleteByPrefix p).map fun (ifp, ifc) =>
    ⟨ifp, s.kept.eraseP fun e => connectedSamePrefix e.2 p, ifc, (s.kept.find? fun e => connectedSamePrefix e.2 p).map Prod.fst⟩

/-- New memory is not in use. -/
def TrackedCall (s : Tracked) : ConnectedOp → Prop
  | .addByPrefix ifc node _ _ => s.ifp.entry ifc = none ∧ node ∉ s.ifp.connected.nodes
  | .deleteByPrefix _ => True

instance (s : Tracked) (op : ConnectedOp) : Decidable (TrackedCall s op) := by
  cases op <;> unfold TrackedCall <;> infer_instance

/-- The list has the entries that were added and not deleted, in order, and a deletion returns the first with its address, which the list
then does not have. -/
structure Tracked.Exact (s : Tracked) : Prop where
  listed : s.ifp.listed = s.kept.map Prod.fst
  returned : s.returned = s.first
  gone : ∀ ifc ∈ s.returned, ifc ∉ s.ifp.listed

/-- A deletion is for an address that no entry has. -/
def NoneFound (s : Tracked) : ConnectedOp → Prop
  | .addByPrefix .. => True
  | .deleteByPrefix p => ∀ e ∈ s.kept, connectedSamePrefix e.2 p = false

/-- The nodes of the list are those of the entries that were kept, which are in memory. -/
structure Tracked.Keeps (s : Tracked) (l : List (ℕ × ℕ)) : Prop where
  holds : s.ifp.connected.Holds l
  kept : l.map Prod.snd = s.kept.map Prod.fst
  entry : ∀ e ∈ s.kept, ∃ c, s.ifp.entry e.1 = some c ∧ c.address = some e.2
  returned : s.returned = none ∧ s.first = none

variable {s t : Tracked} {l : List (ℕ × ℕ)} {p : Prefix} {op : ConnectedOp} {kept : List (ℕ × Prefix)}

theorem Tracked.Keeps.listed (h : s.Keeps l) : s.ifp.listed = s.kept.map Prod.fst := by
  rw [IfConnected.listed, h.holds.nodes_eq, List.map_map, ← h.kept]
  exact List.map_congr_left h.holds.data

theorem Tracked.Keeps.exact (h : s.Keeps l) : s.Exact := by
  refine ⟨h.listed, h.returned.1.trans h.returned.2.symm, fun ifc hifc => ?_⟩
  rw [h.returned.1] at hifc
  cases hifc

theorem deleteLoop_eq {i : IfConnected} (hdelete : ∀ ifc, i.connected.listnodeDelete none ifc = some i.connected) {n : Option ℕ} {fuel : ℕ}
    (hn : Spells i.connected.next n (l.map Prod.fst)) (hdata : ∀ e ∈ l, i.connected.data e.1 = e.2) (hkept : l.map Prod.snd = kept.map Prod.fst)
    (hentry : ∀ e ∈ kept, ∃ c, i.entry e.1 = some c ∧ c.address = some e.2) (hfuel : l.length < fuel) :
    i.deleteLoop p fuel n = some (i, (kept.find? fun e => connectedSamePrefix e.2 p).map Prod.fst) := by
  induction l generalizing n fuel kept with
  | nil =>
    cases hn
    obtain ⟨fuel, rfl⟩ : ∃ k, fuel = k + 1 := ⟨fuel - 1, by simp at hfuel; omega⟩
    rw [List.map_eq_nil_iff.mp hkept.symm]
    rfl
  | cons e l ih =>
    obtain ⟨rfl, hn⟩ := hn
    obtain ⟨fuel, rfl⟩ : ∃ k, fuel = k + 1 := ⟨fuel - 1, by omega⟩
    cases kept with
    | nil => cases hkept
    | cons k kept =>
      obtain ⟨hk, htail⟩ := List.cons.inj hkept
      obtain ⟨c, hc, haddress⟩ := hentry k List.mem_cons_self
      rw [IfConnected.deleteLoop, hdata e List.mem_cons_self, hk, hc, Option.bind_eq_bind, Option.bind_some, haddress, Option.bind_eq_bind, Option.bind_some, List.find?_cons]
      cases hsame : connectedSamePrefix k.2 p with
      | true =>
        rw [if_pos rfl, hdelete]
        rfl
      | false =>
        rw [if_neg Bool.false_ne_true]
        exact ih hn (fun e he => hdata e (List.mem_cons_of_mem _ he)) htail (fun e he => hentry e (List.mem_cons_of_mem k he))
          (Nat.lt_of_succ_lt_succ hfuel)

theorem Tracked.Keeps.deleteByPrefix (h : s.Keeps l) (p : Prefix) :
    s.ifp.deleteByPrefix p = some (s.ifp, (s.kept.find? fun e => connectedSamePrefix e.2 p).map Prod.fst) :=
  deleteLoop_eq (fun _ => h.holds.listnodeDelete_none) (h.holds.head ▸ h.holds.linked.spells) h.holds.data h.kept h.entry
    (by rw [h.holds.count]; exact Nat.lt_succ_self _)

theorem trackedStep_keeps (h : s.Keeps l) (hcall : TrackedCall s op) (hok : NoneFound s op) :
    ∃ t, trackedStep s op = some t ∧ ∃ m, t.Keeps m := by
  cases op with
  | addByPrefix ifc node p destination =>
    obtain ⟨hfree, hnode⟩ := hcall
    rw [h.holds.nodes_eq] at hnode
    rw [trackedStep, IfConnected.addByPrefix, Linklist.add_eq h.holds hnode, Option.map_some, Option.map_some]
    refine ⟨_, rfl, l ++ [(node, ifc)], h.holds.linkLast hnode, ?_, fun e he => ?_, rfl, rfl⟩
    · rw [List.map_append, List.map_append, h.kept]
      rfl
    · obtain he | rfl := (List.mem_append.trans (or_congr_right List.mem_singleton)).mp he
      · obtain ⟨c, hc, haddress⟩ := h.entry e he
        have hne : e.1 ≠ ifc := fun heq => Option.some_ne_none c (hc.symm.trans (heq ▸ hfree))
        exact ⟨c, (Function.update_of_ne hne ..).trans hc, haddress⟩
      · exact ⟨_, Function.update_self .., rfl⟩
  | deleteByPrefix p =>
    have hnone : (s.kept.find? fun e => connectedSamePrefix e.2 p) = none :=
      List.find?_eq_none.mpr fun e he => Bool.eq_false_iff.mp (hok e he)
    have hsame : (s.kept.eraseP fun e => connectedSamePrefix e.2 p) = s.kept :=
      List.eraseP_of_forall_not fun e he => Bool.eq_false_iff.mp (hok e he)
    rw [trackedStep, h.deleteByPrefix, hnone, hsame]
    exact ⟨_, rfl, l, h.holds, h.kept, h.entry, rfl, rfl⟩

theorem trackedStep_not_exact (h : s.Keeps l) (hbad : ¬NoneFound s op) (ht : trackedStep s op = some t) : ¬t.Exact := by
  cases op with
  | addByPrefix ifc node p destination => exact absurd trivial hbad
  | deleteByPrefix p =>
    rw [trackedStep, h.deleteByPrefix, Option.map_some] at ht
    cases ht
    -- the list is as long as before, and the entries that were kept are one less
    intro hexact
    have hlen := congrArg List.length (h.listed.symm.trans hexact.listed)
    dsimp only at hlen
    rw [List.length_map, List.length_map] at hlen
    obtain ⟨e, hfound⟩ := not_forall.mp hbad
    obtain ⟨he, hsame⟩ := Classical.not_imp.mp hfound
    have hlt := @List.length_eraseP_of_mem _ s.kept e (fun e => connectedSamePrefix e.2 p) he (Bool.eq_true_of_not_eq_false hsame)
    have hpos := List.length_pos_of_mem he
    omega

/-- The list is exact exactly in the runs in which no deletion finds an entry. -/
theorem connected_exact (ops : List ConnectedOp) (hops : Run.Along trackedStep TrackedCall .ifNew ops) :
    Run.Along trackedStep NoneFound .ifNew ops ↔ ∀ p, p <+: ops → ∃ t, Run.exec trackedStep .ifNew p = some t ∧ t.Exact := by
  refine Run.along_iff_prefixes (fun s => ∃ l, s.Keeps l) ?_ ?_ ?_ ?_ hops
  · rintro s op ⟨l, h⟩ hcall hok
    exact trackedStep_keeps h hcall hok
  · rintro s ⟨l, h⟩
    exact h.exact
  · rintro s op t ⟨l, h⟩ - hbad ht
    exact trackedStep_not_exact h hbad ht
  · exact ⟨[], ⟨linked_nil, rfl, rfl, rfl, by simp⟩, rfl, by simp [Tracked.ifNew], rfl, rfl⟩

/-- The prefix 10.0.0.1/24, and another one. -/
def tenPrefix (b : UInt8) : Prefix := { zeroPrefix.put 0 [10, 0, 0, b] with family := afInet, prefixlen := 24 }

theorem connected_exact_sample :
    Run.Along trackedStep NoneFound .ifNew [.addByPrefix 0 1 (tenPrefix 1) none, .addByPrefix 2 3 (tenPrefix 2) none, .deleteByPrefix (tenPrefix 3)] ↔
      ∀ p, p <+: [ConnectedOp.addByPrefix 0 1 (tenPrefix 1) none, .addByPrefix 2 3 (tenPrefix 2) none, .deleteByPrefix (tenPrefix 3)] →
        ∃ t, Run.exec trackedStep .ifNew p = some t ∧ t.Exact :=
  connected_exact _ (by decide +kernel)

/-- The entry that is returned as deleted is in the list still. -/
theorem connected_deleted_stays :
    ∃ t, Run.exec trackedStep .ifNew [.addByPrefix 0 1 (tenPrefix 1) none, .deleteByPrefix (tenPrefix 1)] = some t ∧
      t.returned = some 0 ∧ t.ifp.listed = [0] ∧ t.kept = [] ∧ ¬t.Exact := by
  have hrun : (Run.exec trackedStep .ifNew [.addByPrefix 0 1 (tenPrefix 1) none, .deleteByPrefix (tenPrefix 1)]).map
      (fun t => (t.returned, t.ifp.listed, t.kept)) = some (some 0, [0], []) := by decide +kernel
  obtain ⟨t, ht, hseen⟩ := Option.map_eq_some_iff.mp hrun
  simp only [Prod.mk.injEq] at hseen
  obtain ⟨hreturned, hlisted, hkept⟩ := hseen
  refine ⟨t, ht, hreturned, hlisted, hkept, fun h => h.gone 0 hreturned ?_⟩
  rw [hlisted]
  exact List.mem_singleton_self 0

end Yjc.Network
