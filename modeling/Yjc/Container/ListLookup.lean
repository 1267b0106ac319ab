import Yjc.Container.Linklist

/-! `listnode_lookup` with and without `cmp`, and the registry of the hash tables, a list without. -/

namespace Yjc.Linklist
open Links

variable {δ : Type*}

/-- Where the loop of `listnode_lookup` stops: its `else` belongs to the inner `if`. -/
def found [DecidableEq δ] (cmp : Option (δ → δ → ℤ)) (data d : δ) : Bool :=
  match cmp with
  | some cmp => if cmp data d = 0 then true else decide (data = d)
  | none => false

/-- `listnode_lookup`. -/
def lookup [DecidableEq δ] (cmp : Option (δ → δ → ℤ)) (data : δ) (s : Linklist δ) : Option (Option ℕ) :=
  s.scan (found cmp data) (s.count + 1) s.head

/-- `listnode_delete`. -/
def listnodeDelete [DecidableEq δ] (cmp : Option (δ → δ → ℤ)) (val : δ) (s : Linklist δ) : Option (Linklist δ) :=
  (s.lookup cmp val).map fun
    | some node => s.deleteNode node
    | none => s

/-- The data that a lookup is for. -/
def Wanted (cmp : Option (δ → δ → ℤ)) (data d : δ) : Prop :=
  match cmp with
  | some cmp => cmp data d = 0
  | none => d = data

instance decidableWanted [DecidableEq δ] (cmp : Option (δ → δ → ℤ)) (data d : δ) : Decidable (Wanted cmp data d) := by
  cases cmp <;> unfold Wanted <;> infer_instance

/-- With `cmp`, a node with the data itself, if `cmp` tells it from the data, comes after one that `cmp` takes for equal;
without, no node has the data. -/
def Comparable (cmp : Option (δ → δ → ℤ)) (data : δ) (l : List (ℕ × δ)) : Prop :=
  match cmp with
  | some cmp => cmp data data ≠ 0 → ∀ pre e post, l = pre ++ e :: post → e.2 = data → ∃ d ∈ pre, cmp data d.2 = 0
  | none => ∀ e ∈ l, e.2 ≠ data

/-- The first node with the data is found and, to delete it, taken out. -/
structure FindsFirst [DecidableEq δ] (cmp : Option (δ → δ → ℤ)) (data : δ) (s : Linklist δ) (l : List (ℕ × δ)) : Prop where
  lookup : s.lookup cmp data = some ((l.find? fun e => Wanted cmp data e.2).map Prod.fst)
  delete : ∃ t, s.listnodeDelete cmp data = some t ∧ Holds t (l.eraseP fun e => Wanted cmp data e.2)

variable {s : Linklist δ} {l : List (ℕ × δ)} {cmp : Option (δ → δ → ℤ)} {data : δ}

theorem find?_congr_of_fst (hnd : (l.map Prod.fst).Nodup) {p q : ℕ × δ → Bool}
    (h : (l.find? p).map Prod.fst = (l.find? q).map Prod.fst) : l.find? p = l.find? q := by
  -- two searches that stop at the same node have found the same element
  cases hp : l.find? p with
  | none =>
    rw [hp, Option.map_none, eq_comm, Option.map_eq_none_iff] at h
    exact h.symm
  | some e =>
    rw [hp, Option.map_some, eq_comm, Option.map_eq_some_iff] at h
    obtain ⟨d, hd, hfst⟩ := h
    rw [hd, List.inj_on_of_nodup_map hnd (List.mem_of_find?_eq_some hd) (List.mem_of_find?_eq_some hp) hfst]

theorem comparable_cons {c : δ → δ → ℤ} {e : ℕ × δ} (hne : c data e.2 ≠ 0) (hdata : e.2 ≠ data) :
    Comparable (some c) data (e :: l) ↔ Comparable (some c) data l := by
  refine forall_congr' fun _ => ⟨fun h pre d post hl hd => ?_, fun h pre d post hl hd => ?_⟩
  · obtain ⟨a, ha, hzero⟩ := h (e :: pre) d post (by rw [hl, List.cons_append]) hd
    rcases List.mem_cons.mp ha with rfl | ha
    · exact absurd hzero hne
    · exact ⟨a, ha, hzero⟩
  · cases pre with
    | nil =>
      cases hl
      exact absurd hd hdata
    | cons a pre =>
      obtain ⟨rfl, htail⟩ := List.cons.inj hl
      obtain ⟨b, hb, hzero⟩ := h pre d post htail hd
      exact ⟨b, List.mem_cons_of_mem e hb, hzero⟩

variable [DecidableEq δ]

theorem Holds.lookup_eq (h : Holds s l) : s.lookup cmp data = some ((l.find? fun e => found cmp data e.2).map Prod.fst) := by
  rw [lookup, h.scan_eq, List.find?_eq_getElem?_findIdx, List.getElem?_map]

theorem find?_found_none (l : List (ℕ × δ)) : (l.find? fun e => found none data e.2) = none :=
  List.find?_eq_none.mpr fun _ _ => Bool.false_ne_true

theorem Holds.listnodeDelete_none (h : Holds s l) : s.listnodeDelete none data = some s := by
  rw [listnodeDelete, h.lookup_eq, find?_found_none, Option.map_none, Option.map_some]

theorem find?_found_iff {c : δ → δ → ℤ} (l : List (ℕ × δ)) :
    (l.find? fun e => found (some c) data e.2) = (l.find? fun e => Wanted (some c) data e.2) ↔ Comparable (some c) data l := by
  induction l with
  | nil => exact iff_of_true rfl fun _ pre e post h => absurd h.symm (List.append_ne_nil_of_right_ne_nil pre (List.cons_ne_nil e post))
  | cons e l ih =>
    rw [List.find?_cons, List.find?_cons]
    by_cases hzero : c data e.2 = 0
    · rw [show found (some c) data e.2 = true from if_pos hzero, show decide (Wanted (some c) data e.2) = true from decide_eq_true hzero]
      refine iff_of_true rfl fun hne pre d post hl hd => ?_
      cases pre with
      | nil =>
        cases hl
        exact absurd (hd ▸ hzero) hne
      | cons a pre =>
        obtain ⟨rfl, -⟩ := List.cons.inj hl
        exact ⟨e, List.mem_cons_self, hzero⟩
    · have hfound : found (some c) data e.2 = decide (data = e.2) := if_neg hzero
      rw [hfound, show decide (Wanted (some c) data e.2) = false from decide_eq_false hzero]
      by_cases hdata : data = e.2
      · rw [decide_eq_true hdata]
        refine iff_of_false (fun hfind => ?_) fun hc => ?_
        · dsimp only at hfind
          have hwanted := List.find?_some hfind.symm
          exact hzero (of_decide_eq_true hwanted)
        · obtain ⟨d, hd, -⟩ := hc (hdata ▸ hzero) [] e l rfl hdata.symm
          cases hd
      · rw [decide_eq_false hdata, comparable_cons hzero (Ne.symm hdata)]
        exact ih

theorem Holds.lookup_iff (h : Holds s l) :
    s.lookup cmp data = some ((l.find? fun e => Wanted cmp data e.2).map Prod.fst) ↔ Comparable cmp data l := by
  rw [h.lookup_eq, Option.some.injEq]
  constructor
  · intro heq
    have hfind := find?_congr_of_fst h.linked.nodup heq
    cases cmp with
    | none =>
      rw [find?_found_none, eq_comm, List.find?_eq_none] at hfind
      exact fun e he hdata => hfind e he (decide_eq_true hdata)
    | some c => exact (find?_found_iff l).mp hfind
  · intro hc
    cases cmp with
    | none =>
      rw [find?_found_none, eq_comm, Option.map_none, Option.map_eq_none_iff, List.find?_eq_none]
      exact fun e he hdata => hc e he (of_decide_eq_true hdata)
    | some c => rw [(find?_found_iff l).mpr hc]

theorem Holds.findsFirst_iff (h : Holds s l) : FindsFirst cmp data s l ↔ Comparable cmp data l := by
  refine ⟨fun hf => h.lookup_iff.mp hf.lookup, fun hc => ?_⟩
  have hlookup := h.lookup_iff.mpr hc
  refine ⟨hlookup, ?_⟩
  unfold listnodeDelete
  rw [hlookup, List.eraseP_eq_eraseIdx, Option.map_some]
  cases hfind : l.findIdx? fun e => Wanted cmp data e.2 with
  | none =>
    have hnone : (l.find? fun e => Wanted cmp data e.2) = none := by
      rw [List.findIdx?_eq_none_iff] at hfind
      exact List.find?_eq_none.mpr fun e he => Bool.eq_false_iff.mp (hfind e he)
    rw [hnone]
    exact ⟨s, rfl, h⟩
  | some i =>
    obtain ⟨hi, hwanted, -⟩ := List.findIdx?_eq_some_iff_getElem.mp hfind
    have hsome : (l.find? fun e => Wanted cmp data e.2) = some l[i] := by
      rw [List.find?_eq_getElem?_findIdx, List.findIdx_eq_getD_findIdx?, hfind]
      exact List.getElem?_eq_getElem hi
    rw [hsome]
    refine ⟨_, rfl, h.detach ?_⟩
    rw [List.getElem?_map, List.getElem?_eq_getElem hi, Option.map_some]

end Yjc.Linklist

namespace Yjc
open Linklist

/-! ## The registry of the hash tables -/

/-- `_hashes`, and the tables in memory. -/
structure Hashes where
  hashes : Option (Linklist ℕ)
  tables : List ℕ

inductive HashesOp
  | create (node hash : ℕ)
  | free (hash : ℕ)
deriving DecidableEq

/-- `hash_create_size`, as far as the registry; the table is at `hash`, and its node in the list at `node`. -/
def registerHash (node hash : ℕ) (s : Hashes) : Option Hashes :=
  let list := s.hashes.getD (Linklist.create (fun _ => none) (fun _ => none) fun _ => 0)
  (list.add node hash).map fun r => ⟨some r.2, hash :: s.tables⟩

/-- `hash_free`. -/
def hashFree (hash : ℕ) (s : Hashes) : Option Hashes := do
  let hashes ← match s.hashes with
    | some list => (list.listnodeDelete none hash).map fun list => if list.count = 0 then none else some list
    | none => some none
  some ⟨hashes, s.tables.erase hash⟩

def hashesStep (s : Hashes) : HashesOp → Option Hashes
  | .create node hash => registerHash node hash s
  | .free hash => hashFree hash s

/-- New memory is not in use; a table is freed once. -/
def HashesOp.Valid (s : Hashes) : HashesOp → Prop
  | .create node hash => hash ∉ s.tables ∧ ∀ list ∈ s.hashes, node ∉ list.nodes
  | .free hash => hash ∈ s.tables

instance decidableHashesValid (s : Hashes) (op : HashesOp) : Decidable (op.Valid s) := by
  cases op <;> unfold HashesOp.Valid <;> infer_instance

def Hashes.registered (s : Hashes) : List ℕ := (s.hashes.map fun list => list.nodes.map list.data).getD []

def Hashes.Exact (s : Hashes) : Prop := s.registered.Perm s.tables

def Hashes.Held (s : Hashes) : Prop := ∀ list ∈ s.hashes, ∃ l, Holds list l

def HashesOp.isCreate : HashesOp → Bool
  | .create .. => true
  | .free _ => false

theorem Linklist.Holds.registered {list : Linklist ℕ} {l : List (ℕ × ℕ)} (h : Holds list l) (tables : List ℕ) :
    Hashes.registered ⟨some list, tables⟩ = l.map Prod.snd := by
  change list.nodes.map list.data = _
  rw [h.nodes_eq, List.map_map]
  exact List.map_congr_left h.data

theorem registerHash_exact {s : Hashes} {node hash : ℕ} (hheld : s.Held) (hexact : s.Exact)
    (hvalid : (HashesOp.create node hash).Valid s) : ∃ t, registerHash node hash s = some t ∧ t.Held ∧ t.Exact := by
  have hlist : ∃ l, Holds (s.hashes.getD (create (fun _ => none) (fun _ => none) fun _ => 0)) l ∧
      node ∉ l.map Prod.fst ∧ (l.map Prod.snd).Perm s.tables := by
    obtain ⟨hashes, tables⟩ := s
    cases hashes with
    | none => exact ⟨[], ⟨Links.linked_nil, rfl, rfl, rfl, by simp⟩, List.not_mem_nil, hexact⟩
    | some list =>
      obtain ⟨l, hl⟩ := hheld list rfl
      exact ⟨l, hl, hl.nodes_eq ▸ hvalid.2 list rfl, hl.registered tables ▸ hexact⟩
  obtain ⟨l, hl, hnode, hperm⟩ := hlist
  have hnew : Holds _ (l ++ [(node, hash)]) := hl.linkLast hnode
  unfold registerHash
  dsimp only
  rw [add_eq hl hnode, Option.map_some]
  refine ⟨_, rfl, ?_, ?_⟩
  · intro list hlist
    cases hlist
    exact ⟨_, hnew⟩
  · unfold Hashes.Exact
    rw [hnew.registered, List.map_append, List.map_singleton]
    exact (List.perm_append_singleton hash _).trans (hperm.cons hash)

theorem hashFree_registered {s : Hashes} {hash : ℕ} (hheld : s.Held) (hexact : s.Exact) (hin : hash ∈ s.tables) :
    ∃ t, hashFree hash s = some t ∧ t.Held ∧ ¬t.Exact := by
  obtain ⟨hashes, tables⟩ := s
  cases hashes with
  | none =>
    have hnil : tables = [] := List.nil_perm.mp hexact
    rw [hnil] at hin
    cases hin
  | some list =>
    obtain ⟨l, hl⟩ := hheld list rfl
    have hperm : (l.map Prod.snd).Perm tables := hl.registered tables ▸ hexact
    have hpos : 0 < l.length := by
      rw [← List.length_map Prod.snd, hperm.length_eq]
      exact List.length_pos_of_mem hin
    refine ⟨⟨some list, tables.erase hash⟩, ?_, hheld, fun hc => ?_⟩
    · unfold hashFree
      dsimp only
      rw [hl.listnodeDelete_none, Option.map_some, if_neg (by rw [hl.count]; omega)]
      rfl
    · unfold Hashes.Exact at hc
      rw [hl.registered] at hc
      have hlen := (hperm.symm.trans hc).length_eq
      rw [List.length_erase_of_mem hin] at hlen
      have htables := List.length_pos_of_mem hin
      dsimp only at hlen htables
      omega

theorem lookup_by_value {δ : Type*} [DecidableEq δ] (cmp : Option (δ → δ → ℤ)) (data : δ) {s : Linklist δ} {l : List (ℕ × δ)}
    (h : Holds s l) {ops : List HashesOp} (hops : Run.Along hashesStep (fun s op => op.Valid s) ⟨none, []⟩ ops) :
    (FindsFirst cmp data s l ↔ Comparable cmp data l) ∧
      (Run.Along hashesStep (fun _ op => op.isCreate = true) ⟨none, []⟩ ops ↔
        ∀ p, p <+: ops → ∃ t, Run.exec hashesStep ⟨none, []⟩ p = some t ∧ t.Exact) := by
  refine ⟨h.findsFirst_iff, Run.along_iff_safe Hashes.Held ?_ (fun list hlist => by cases hlist) (.refl []) hops⟩
  intro s op hheld hexact hvalid
  cases op with
  | create node hash =>
    obtain ⟨t, ht, hheld', hexact'⟩ := registerHash_exact hheld hexact hvalid
    exact ⟨t, ht, hheld', iff_of_true hexact' rfl⟩
  | free hash =>
    obtain ⟨t, ht, hheld', hexact'⟩ := hashFree_registered hheld hexact hvalid
    exact ⟨t, ht, hheld', iff_of_false hexact' Bool.false_ne_true⟩

def oneNode {δ : Type*} (data : δ) : Linklist δ := (Linklist.create (fun _ => none) (fun _ => none) fun _ => data).link 0 data none none

theorem oneNode_holds {δ : Type*} (data : δ) : Holds (oneNode data) [(0, data)] := by
  have hempty : Holds (Linklist.create (fun _ => none) (fun _ => none) fun _ => data) [] :=
    ⟨Links.linked_nil, rfl, rfl, rfl, by simp⟩
  exact hempty.linkLast List.not_mem_nil

theorem lookup_by_value_sample :
    (FindsFirst (some fun x y : ℤ => x - y) 7 (oneNode 7) [(0, 7)] ↔ Comparable (some fun x y : ℤ => x - y) 7 [(0, 7)]) ∧
      (Run.Along hashesStep (fun _ op => op.isCreate = true) ⟨none, []⟩ [.create 0 9, .create 1 4, .free 9] ↔
        ∀ p, p <+: [.create 0 9, .create 1 4, .free 9] →
          ∃ t, Run.exec hashesStep ⟨none, []⟩ p = some t ∧ t.Exact) :=
  lookup_by_value (some fun x y : ℤ => x - y) 7 (oneNode_holds 7) (by decide +kernel)

/-- The only node has the data, and is not found; a table that is freed stays registered. -/
theorem lookup_misses :
    (oneNode 7).lookup none 7 = some none ∧ ¬FindsFirst none 7 (oneNode 7) [(0, 7)] ∧
      ∃ t, Run.exec hashesStep ⟨none, []⟩ [.create 0 9, .free 9] = some t ∧ t.registered = [9] ∧ t.tables = [] := by
  refine ⟨by decide +kernel, fun h => ?_, ?_⟩
  · have hcomp := (oneNode_holds 7).findsFirst_iff.mp h
    exact hcomp (0, 7) List.mem_cons_self rfl
  · have hrun : ∃ t ∈ Run.exec hashesStep ⟨none, []⟩ [.create 0 9, .free 9], t.registered = [9] ∧ t.tables = [] := by
      decide +kernel
    exact hrun

end Yjc
