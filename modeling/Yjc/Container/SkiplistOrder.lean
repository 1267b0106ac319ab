import Yjc.Container.SkiplistRuns
import Mathlib.Data.List.Perm.Subperm

/-! The order in which the skip list serves the values under one key. -/

namespace Yjc.Skiplist
open Links

variable {κ ν : Type}

section Values
variable (cmp : κ → κ → ℤ)

def answer (key : κ) (s : Skiplist κ ν) : Option ℕ → Option (ν × ℕ)
  | none => none
  | some q => if cmp (s.key q) key ≠ 0 then none else some (s.value q, q)

/-- `skiplist_first_value`; `some none` is -1. -/
def firstValue (key : κ) (s : Skiplist κ ν) : Option (Option (ν × ℕ)) := do
  let p ← s.descend cmp key s.level s.header
  let q ← s.get p 0
  some (s.answer cmp key q)

variable [DecidableEq ν]

/-- The loop of `skiplist_next_value` that looks for the value. -/
def matchValue (key : κ) (value : ν) (s : Skiplist κ ν) : ℕ → Option ℕ → Option (Option ℕ)
  | _, none => some none
  | 0, some _ => none
  | fuel + 1, some q =>
    if cmp (s.key q) key = 0 ∧ s.value q ≠ value then (s.get q 0).bind (matchValue key value s fuel) else some (some q)

/-- Where `skiplist_next_value` begins without a cursor. -/
def findCursor (key : κ) (value : ν) (s : Skiplist κ ν) : Option (Option ℕ) := do
  let p ← s.descend cmp key s.level s.header
  let q ← s.get p 0
  let q ← s.matchValue cmp key value (s.count + 1) q
  some (q.filter fun q => cmp (s.key q) key = 0 ∧ s.value q = value)

/-- `skiplist_next_value`; `some none` is -1. -/
def nextValue (key : κ) (value : ν) (cursor : Option ℕ) (s : Skiplist κ ν) : Option (Option (ν × ℕ)) :=
  if s.allowDuplicates = false then some none
  else
    (match cursor with
      | some q => some (some q)
      | none => s.findCursor cmp key value).bind fun
      | none => some none
      | some q => (s.get q 0).map (s.answer cmp key)

/-- The values that `skiplist_next_value` gives one after the other until it returns -1. -/
def nextValues (key : κ) (s : Skiplist κ ν) : ℕ → ν → ℕ → Option (List ν)
  | 0, _, _ => none
  | fuel + 1, value, cursor => do
    let r ← s.nextValue cmp key value (some cursor)
    match r with
    | none => some []
    | some (value, cursor) => (nextValues key s fuel value cursor).map (value :: ·)

def valuesOf (key : κ) (s : Skiplist κ ν) : Option (List ν) := do
  let r ← s.firstValue cmp key
  match r with
  | none => some []
  | some (value, cursor) => (s.nextValues cmp key (s.count + 1) value cursor).map (value :: ·)

end Values

def under (cmp : κ → κ → ℤ) (s : Skiplist κ ν) (key : κ) (l : List ℕ) : List ℕ := l.filter fun a => cmp (s.key a) key = 0

structure Record (κ ν : Type) where
  list : Skiplist κ ν
  arrivals : List ℕ

/-- What an operation that returns `r` and leaves `t` does to the nodes. -/
def arrive (o : Op κ ν) (r : ℤ) (t : Skiplist κ ν) (arrivals : List ℕ) : List ℕ :=
  match o with
  | .insert new _ _ => if r = 0 then arrivals ++ [new] else arrivals
  | .delete .. | .deleteFirst | .other => arrivals.filter fun a => a ∈ t.nodes

def recordStep [DecidableEq ν] (cmp : κ → κ → ℤ) (random : ℕ → ℕ) (s : Record κ ν) (o : Op κ ν) : Option (Record κ ν) :=
  (s.list.perform cmp random o).map fun r => ⟨r.2, arrive o r.1 r.2 s.arrivals⟩

/-- The values under each key are served in the order in which they were inserted. -/
def Record.Fifo [DecidableEq ν] (cmp : κ → κ → ℤ) (s : Record κ ν) : Prop :=
  ∀ key, s.list.valuesOf cmp key = some ((s.list.under cmp key s.arrivals).map s.list.value)

/-- The values that are stored under the key of an insertion are equal to its value. -/
def Op.Repeats (cmp : κ → κ → ℤ) (s : Record κ ν) : Op κ ν → Prop
  | .insert _ key value => ∀ a ∈ s.list.under cmp key s.arrivals, s.list.value a = value
  | .delete .. | .deleteFirst | .other => True

/-- The nodes with a key are in the list in the reverse of the order in which they were inserted. -/
structure Record.Lifo (cmp : κ → κ → ℤ) (s : Record κ ν) : Prop where
  layered : Layered cmp s.list s.list.nodes
  allow : s.list.allowDuplicates = true
  perm : s.arrivals.Perm s.list.nodes
  reverse : ∀ key, s.list.under cmp key s.list.nodes = (s.list.under cmp key s.arrivals).reverse

/-- No key has two different values. -/
def Record.Uniform (cmp : κ → κ → ℤ) (s : Record κ ν) : Prop :=
  ∀ a ∈ s.arrivals, ∀ b ∈ s.arrivals, cmp (s.list.key a) (s.list.key b) = 0 → s.list.value a = s.list.value b

variable {cmp : κ → κ → ℤ} {s t : Skiplist κ ν} {l pre post : List ℕ} {key : κ} {value : ν} {q : ℕ} {r : Record κ ν}

theorem mem_under {a : ℕ} : a ∈ s.under cmp key l ↔ a ∈ l ∧ cmp (s.key a) key = 0 := by
  rw [under, List.mem_filter, decide_eq_true_eq]

theorem Layered.get_next (h : Layered cmp s (pre ++ q :: post)) : s.get q 0 = some post.head? := by
  have hlast : lastOr s.header (pre ++ [q]) = q := lastOr_concat ..
  have hsplit : pre ++ q :: post = (pre ++ [q]) ++ post := by rw [List.append_assoc, List.singleton_append]
  have hs := h.spells_after (Nat.zero_le _) hsplit (Nat.zero_le _)
  rw [onLevel_zero, hlast] at hs
  rw [get, if_pos (Nat.zero_le _), Spells.eq_head? hs]

theorem answer_head? {qs rest : List ℕ} (hqs : ∀ a ∈ qs, cmp (s.key a) key = 0) (hrest : ∀ a ∈ rest, cmp (s.key a) key ≠ 0) :
    s.answer cmp key (qs ++ rest).head? = qs.head?.map fun a => (s.value a, a) := by
  cases qs with
  | nil =>
    cases rest with
    | nil => rfl
    | cons a rest => exact if_pos (hrest a List.mem_cons_self)
  | cons a qs => exact if_neg (not_not.mpr (hqs a List.mem_cons_self))

theorem Layered.exists_under (hc : TotalPreorder cmp) (h : Layered cmp s l) (key : κ) :
    ∃ pre qs rest, l = pre ++ (qs ++ rest) ∧ Split cmp s key pre (qs ++ rest) ∧ (∀ a ∈ qs, cmp (s.key a) key = 0) ∧
      ∀ a ∈ rest, cmp (s.key a) key ≠ 0 := by
  obtain ⟨pre, post, rfl, hsplit⟩ := h.exists_split hc key
  refine ⟨pre, post.takeWhile fun a => cmp (s.key a) key = 0, post.dropWhile fun a => cmp (s.key a) key = 0, ?_, ?_, ?_, ?_⟩
  · rw [List.takeWhile_append_dropWhile]
  · rwa [List.takeWhile_append_dropWhile]
  · intro a ha
    have heq := List.mem_takeWhile_imp ha
    exact of_decide_eq_true heq
  · intro a ha
    cases hrest : post.dropWhile fun a => cmp (s.key a) key = 0 with
    | nil =>
      rw [hrest] at ha
      cases ha
    | cons b rest =>
      have hhead : cmp (s.key b) key ≠ 0 := by
        have hnot := List.head_dropWhile_not (fun a => decide (cmp (s.key a) key = 0)) (l := post)
          (by rw [hrest]; exact List.cons_ne_nil b rest)
        simp only [hrest, List.head_cons] at hnot
        exact of_decide_eq_false hnot
      have hpost : post = (post.takeWhile fun a => cmp (s.key a) key = 0) ++ b :: rest := by
        rw [← hrest, List.takeWhile_append_dropWhile]
      rw [hrest] at ha
      rw [hpost, ← List.append_assoc] at h
      refine h.ne_of_head hc (fun c hc' => hsplit.above c ?_) hhead a ha
      rw [hpost]
      exact List.mem_append_right _ hc'

theorem reverse_of_forall_eq {vs : List ν} (h : ∀ v ∈ vs, ∀ w ∈ vs, v = w) : vs.reverse = vs := by
  cases vs with
  | nil => rfl
  | cons v vs =>
    rw [List.eq_replicate_of_mem fun w hw => h w hw v List.mem_cons_self, List.reverse_replicate]

theorem under_append {l' : List ℕ} : s.under cmp key (l ++ l') = s.under cmp key l ++ s.under cmp key l' := List.filter_append ..

theorem under_congr (h : ∀ a ∈ l, t.key a = s.key a) : t.under cmp key l = s.under cmp key l :=
  List.filter_congr fun a ha => by rw [h a ha]

section Inserted
variable {new k : ℕ} {rng : Rng} {key' : κ}

theorem under_inserted_of_not_mem (hl : new ∉ l) :
    (s.inserted pre post new k key value rng).under cmp key' l = s.under cmp key' l :=
  under_congr fun _ ha => Function.update_of_ne (ne_of_mem_of_not_mem ha hl) ..

theorem under_inserted_self :
    (s.inserted pre post new k key value rng).under cmp key' [new] = if cmp key key' = 0 then [new] else [] := by
  have hself : (s.inserted pre post new k key value rng).key new = key := Function.update_self ..
  unfold under
  rw [List.filter_singleton, hself]
  by_cases heq : cmp key key' = 0
  · rw [decide_eq_true heq, if_pos heq]
    rfl
  · rw [decide_eq_false heq, if_neg heq]
    rfl

theorem under_inserted (hc : TotalPreorder cmp) (hsplit : Split cmp s key pre post) (hnew : new ∉ pre ++ post) :
    (s.inserted pre post new k key value rng).under cmp key' (pre ++ new :: post) =
      (s.inserted pre post new k key value rng).under cmp key' [new] ++ s.under cmp key' (pre ++ post) := by
  -- a node that is inserted comes before those with its key
  rw [List.mem_append, not_or] at hnew
  rw [← List.singleton_append, under_append, under_append, under_append, under_inserted_of_not_mem hnew.1,
    under_inserted_of_not_mem hnew.2, under_inserted_self]
  by_cases heq : cmp key key' = 0
  · have hnone : s.under cmp key' pre = [] := by
      refine List.filter_eq_nil_iff.mpr fun a ha hc' => ?_
      exact (hc.lt_of_lt_of_le (hsplit.below a ha) heq.le).ne (of_decide_eq_true hc')
    rw [hnone, List.nil_append, List.nil_append]
  · rw [if_neg heq, List.nil_append, List.nil_append]

end Inserted

/-- What an insertion makes of the record. -/
structure Record.Inserts (cmp : κ → κ → ℤ) (new : ℕ) (key : κ) (value : ν) (r r' : Record κ ν) : Prop where
  lifo : r'.Lifo cmp
  arrivals : r'.arrivals = r.arrivals ++ [new]
  fresh : new ∉ r.arrivals
  key : r'.list.key = Function.update r.list.key new key
  value : r'.list.value = Function.update r.list.value new value

/-- What any other operation makes of it: nodes go, and nothing comes. -/
structure Record.Removes (cmp : κ → κ → ℤ) (r r' : Record κ ν) : Prop where
  lifo : r'.Lifo cmp
  arrivals : r'.arrivals.Sublist r.arrivals
  key : r'.list.key = r.list.key
  value : r'.list.value = r.list.value

theorem eq_filter_of_sublist {l' : List ℕ} (hnd : l.Nodup) (h : l'.Sublist l) : l' = l.filter fun a => a ∈ l' := by
  have hsub : l'.Sublist (l.filter fun a => a ∈ l') := by
    have hfilter := h.filter fun a => decide (a ∈ l')
    rwa [List.filter_eq_self.mpr fun a ha => decide_eq_true ha] at hfilter
  refine hsub.eq_of_length_le (List.subperm_of_subset (hnd.filter _) fun a ha => ?_).length_le
  exact of_decide_eq_true (List.mem_filter.mp ha).2

theorem Record.Lifo.sublist (h : r.Lifo cmp) {l' : List ℕ} (hl : l'.Sublist r.list.nodes) (ht : Layered cmp t l')
    (hallow : t.allowDuplicates = r.list.allowDuplicates) (hkey : t.key = r.list.key) (hvalue : t.value = r.list.value) :
    r.Removes cmp ⟨t, r.arrivals.filter fun a => a ∈ t.nodes⟩ := by
  have hnodes := ht.nodes_eq
  have hnd : r.list.nodes.Nodup := h.layered.nodup.of_cons
  have hkept := eq_filter_of_sublist hnd hl
  refine ⟨⟨?_, hallow.trans h.allow, ?_, fun key => ?_⟩, List.filter_sublist, hkey, hvalue⟩
  · rw [hnodes]
    exact ht
  · rw [hnodes]
    exact (h.perm.filter _).trans (.of_eq hkept.symm)
  · have hunder (l : List ℕ) : t.under cmp key (l.filter fun a => a ∈ l') = (r.list.under cmp key l).filter fun a => a ∈ l' := by
      unfold under
      rw [hkey, List.filter_comm]
    rw [hnodes]
    calc t.under cmp key l' = t.under cmp key (r.list.nodes.filter fun a => a ∈ l') := congrArg _ hkept
      _ = ((r.list.under cmp key r.arrivals).reverse).filter fun a => a ∈ l' := by rw [hunder, h.reverse]
      _ = (t.under cmp key (r.arrivals.filter fun a => a ∈ l')).reverse := by rw [List.filter_reverse, hunder]

theorem Record.Uniform.remove {r' : Record κ ν} (hu : r.Uniform cmp) (h : r.Removes cmp r') : r'.Uniform cmp := by
  intro a ha b hb heq
  rw [h.key] at heq
  rw [h.value]
  exact hu a (h.arrivals.subset ha) b (h.arrivals.subset hb) heq

section Insert
variable {r' : Record κ ν} {new : ℕ}

theorem Record.Inserts.old (h : r.Inserts cmp new key value r') {a : ℕ} (ha : a ∈ r.arrivals) :
    r'.list.key a = r.list.key a ∧ r'.list.value a = r.list.value a := by
  have hne : a ≠ new := ne_of_mem_of_not_mem ha h.fresh
  rw [h.key, h.value, Function.update_of_ne hne, Function.update_of_ne hne]
  exact ⟨rfl, rfl⟩

theorem Record.Inserts.self (h : r.Inserts cmp new key value r') : r'.list.key new = key ∧ r'.list.value new = value := by
  rw [h.key, h.value, Function.update_self, Function.update_self]
  exact ⟨rfl, rfl⟩

theorem Record.Uniform.insert (hc : TotalPreorder cmp) (hu : r.Uniform cmp) (h : r.Inserts cmp new key value r')
    (hrepeat : (Op.insert new key value).Repeats cmp r) : r'.Uniform cmp := by
  intro a ha b hb heq
  rw [h.arrivals, List.mem_append, List.mem_singleton] at ha hb
  rcases ha with ha | rfl
  · rcases hb with hb | rfl
    · rw [(h.old ha).1, (h.old hb).1] at heq
      rw [(h.old ha).2, (h.old hb).2]
      exact hu a ha b hb heq
    · rw [(h.old ha).1, h.self.1] at heq
      rw [(h.old ha).2, h.self.2]
      exact hrepeat a (mem_under.mpr ⟨ha, heq⟩)
  · rcases hb with hb | rfl
    · rw [(h.old hb).1, h.self.1] at heq
      rw [(h.old hb).2, h.self.2]
      exact (hrepeat b (mem_under.mpr ⟨hb, hc.eq_swap heq⟩)).symm
    · rfl

theorem Record.Inserts.values (hc : TotalPreorder cmp) (h : r.Inserts cmp new key value r') :
    (r'.list.under cmp key r'.arrivals).map r'.list.value = (r.list.under cmp key r.arrivals).map r.list.value ++ [value] := by
  have hnew : r'.list.under cmp key [new] = [new] := by
    refine List.filter_eq_self.mpr fun a ha => decide_eq_true ?_
    rw [List.mem_singleton.mp ha, h.self.1]
    exact hc.refl key
  rw [h.arrivals, under_append, under_congr fun a ha => (h.old ha).1, hnew, List.map_append, List.map_singleton, h.self.2]
  exact congrArg (· ++ _) (List.map_congr_left fun a ha => (h.old (mem_under.mp ha).1).2)

end Insert

theorem lifo_new (header : ℕ) (height : ℕ → ℕ) (forward : ℕ → ℕ → Option ℕ) (key : ℕ → κ) (value : ℕ → ν) (rng : Rng) :
    Record.Lifo cmp ⟨new true header height forward key value rng, []⟩ := by
  have h : Layered cmp (new true header height forward key value rng) [] := layered_new ..
  have hnodes := h.nodes_eq
  refine ⟨?_, rfl, ?_, fun key => ?_⟩
  · rw [hnodes]
    exact h
  · rw [hnodes]
  · rw [hnodes]
    rfl

/-! ## Values and runs -/

variable [DecidableEq ν]

theorem nextValue_cursor (hdup : s.allowDuplicates = true) :
    s.nextValue cmp key value (some q) = (s.get q 0).map (s.answer cmp key) := by
  unfold nextValue
  rw [hdup]
  rfl

theorem Layered.nextValue_eq {qs rest : List ℕ} (h : Layered cmp s (pre ++ q :: (qs ++ rest))) (hdup : s.allowDuplicates = true)
    (hqs : ∀ a ∈ qs, cmp (s.key a) key = 0) (hrest : ∀ a ∈ rest, cmp (s.key a) key ≠ 0) :
    s.nextValue cmp key value (some q) = some (qs.head?.map fun a => (s.value a, a)) := by
  rw [nextValue_cursor hdup, h.get_next, Option.map_some, answer_head? hqs hrest]

theorem Layered.nextValues_eq {qs rest : List ℕ} (h : Layered cmp s (pre ++ q :: (qs ++ rest))) (hdup : s.allowDuplicates = true)
    (hqs : ∀ a ∈ qs, cmp (s.key a) key = 0) (hrest : ∀ a ∈ rest, cmp (s.key a) key ≠ 0) {fuel : ℕ} (hfuel : qs.length < fuel) :
    s.nextValues cmp key fuel value q = some (qs.map s.value) := by
  induction qs generalizing pre q value fuel with
  | nil =>
    obtain ⟨fuel, rfl⟩ := Nat.exists_eq_add_one.mpr hfuel
    rw [nextValues, h.nextValue_eq hdup hqs hrest]
    rfl
  | cons a qs ih =>
    obtain ⟨fuel, rfl⟩ := Nat.exists_eq_add_one.mpr (Nat.zero_lt_of_lt hfuel)
    have h' : Layered cmp s ((pre ++ [q]) ++ a :: (qs ++ rest)) := by simpa using h
    rw [nextValues, h.nextValue_eq hdup hqs hrest]
    change (nextValues cmp key s fuel (s.value a) a).map _ = _
    rw [ih h' (fun b hb => hqs b (List.mem_cons_of_mem a hb)) (Nat.lt_of_succ_lt_succ hfuel)]
    rfl

theorem Layered.valuesOf_eq (hc : TotalPreorder cmp) (h : Layered cmp s l) (hdup : s.allowDuplicates = true) (key : κ) :
    s.valuesOf cmp key = some ((s.under cmp key l).map s.value) := by
  obtain ⟨pre, qs, rest, rfl, hsplit, hqs, hrest⟩ := h.exists_under hc key
  have hunder : s.under cmp key (pre ++ (qs ++ rest)) = qs := by
    unfold under
    rw [List.filter_append, List.filter_append, List.filter_eq_nil_iff.mpr, List.filter_eq_self.mpr, List.filter_eq_nil_iff.mpr,
      List.nil_append, List.append_nil]
    · exact fun a ha => by simpa using hrest a ha
    · exact fun a ha => by simpa using hqs a ha
    · exact fun a ha => by simpa using (hsplit.below a ha).ne
  have hfirst : s.firstValue cmp key = some (qs.head?.map fun a => (s.value a, a)) := by
    unfold firstValue
    rw [h.descend_eq hsplit h.level_lt (h.reached_header pre), Option.bind_eq_bind, Option.bind_some, h.get_stop,
      Option.bind_eq_bind, Option.bind_some, answer_head? hqs hrest]
  rw [hunder]
  unfold valuesOf
  rw [hfirst]
  cases qs with
  | nil => rfl
  | cons q qs =>
    have hcount : qs.length < s.count + 1 := by
      rw [h.count]
      simp only [List.length_append, List.length_cons]
      omega
    change (nextValues cmp key s (s.count + 1) (s.value q) q).map _ = _
    rw [h.nextValues_eq hdup (fun a ha => hqs a (List.mem_cons_of_mem q ha)) hrest hcount]
    rfl

theorem Record.Lifo.valuesOf (hc : TotalPreorder cmp) (h : r.Lifo cmp) (key : κ) :
    r.list.valuesOf cmp key = some ((r.list.under cmp key r.arrivals).map r.list.value).reverse := by
  rw [h.layered.valuesOf_eq hc h.allow, h.reverse, List.map_reverse]

theorem Record.Uniform.fifo (hc : TotalPreorder cmp) (h : r.Lifo cmp) (hu : r.Uniform cmp) : r.Fifo cmp := by
  intro key
  rw [h.valuesOf hc, reverse_of_forall_eq]
  intro v hv w hw
  obtain ⟨a, ha, rfl⟩ := List.mem_map.mp hv
  obtain ⟨b, hb, rfl⟩ := List.mem_map.mp hw
  obtain ⟨ha, hak⟩ := mem_under.mp ha
  obtain ⟨hb, hbk⟩ := mem_under.mp hb
  exact hu a ha b hb (hc.eq_trans hak (hc.eq_swap hbk))

theorem Record.Lifo.insert (hc : TotalPreorder cmp) (random : ℕ → ℕ) (h : r.Lifo cmp) {new : ℕ}
    (hvalid : Valid r.list (.insert new key value)) :
    ∃ r', recordStep cmp random r (.insert new key value) = some r' ∧ r.Inserts cmp new key value r' := by
  obtain ⟨pre, post, hl, hsplit⟩ := h.layered.exists_split hc key
  have hlayered := h.layered
  have hperm := h.perm
  have hreverse := h.reverse
  rw [hl] at hlayered hperm hreverse
  have hmem : new ∉ pre ++ post := hl ▸ hvalid.2
  have hnew : new ∉ r.list.header :: pre ++ post := List.not_mem_cons_of_ne_of_not_mem hvalid.1 hmem
  have hinsert := hlayered.insert_eq hsplit random hnew value
  rw [h.allow] at hinsert
  rw [if_neg (by exact Bool.false_ne_true)] at hinsert
  obtain ⟨k, rng, hmax, hsucc, hinsert⟩ := hinsert
  have hlayered' : Layered cmp (r.list.inserted pre post new k key value rng) (pre ++ new :: post) := by
    refine hlayered.inserted hc hsplit hnew hmax hsucc fun hdup => ?_
    rw [h.allow] at hdup
    cases hdup
  have hnodes := hlayered'.nodes_eq
  have hfresh : new ∉ r.arrivals := fun hc' => hmem (hperm.subset hc')
  refine ⟨⟨r.list.inserted pre post new k key value rng, r.arrivals ++ [new]⟩, ?_, ⟨?_, h.allow, ?_, fun key' => ?_⟩, rfl, hfresh, rfl,
    rfl⟩
  · change (r.list.insert cmp random new key value).map _ = _
    rw [hinsert]
    rfl
  · rw [hnodes]
    exact hlayered'
  · rw [hnodes]
    exact (List.perm_append_singleton new _).trans ((hperm.cons new).trans List.perm_middle.symm)
  · rw [hnodes, under_inserted hc hsplit hmem, hreverse key', under_append, List.reverse_append, under_inserted_of_not_mem hfresh]
    refine congrArg (· ++ _) ?_
    rw [under_inserted_self]
    split_ifs <;> rfl

theorem Record.Lifo.remove (hc : TotalPreorder cmp) (random : ℕ → ℕ) (h : r.Lifo cmp) {o : Op κ ν}
    (ho : ∀ new key value, o ≠ .insert new key value) : ∃ r', recordStep cmp random r o = some r' ∧ r.Removes cmp r' := by
  have hsub (pre post : List ℕ) (q : ℕ) : (pre ++ post).Sublist (pre ++ q :: post) := (List.sublist_cons_self q post).append_left pre
  cases o with
  | insert new key value => exact absurd rfl (ho new key value)
  | delete key value =>
    rcases h.layered.delete_eq hc key value with ⟨hdelete, -⟩ | ⟨pre, q, post, m, hl, hdelete, htop, -, -⟩
    · exact ⟨_, congrArg (Option.map _) hdelete, h.sublist (List.Sublist.refl _) h.layered rfl rfl rfl⟩
    · have hlayered := h.layered
      rw [hl] at hlayered
      exact ⟨_, congrArg (Option.map _) hdelete, h.sublist (hl ▸ hsub pre post q) (hlayered.removed htop rfl) rfl rfl rfl⟩
  | deleteFirst =>
    have hlayered := h.layered
    cases hl : r.list.nodes with
    | nil =>
      rw [hl] at hlayered
      exact ⟨_, congrArg (Option.map _) hlayered.deleteFirst_nil, h.sublist (List.Sublist.refl _) h.layered rfl rfl rfl⟩
    | cons q l =>
      rw [hl] at hlayered
      have hlayered' : Layered cmp r.list ([] ++ q :: l) := hlayered
      obtain ⟨m, hm, htop⟩ := hlayered'.deleteFirst_eq
      exact ⟨_, congrArg (Option.map _) hm, h.sublist (hl ▸ hsub [] l q) (hlayered'.removed htop rfl) rfl rfl rfl⟩
  | other =>
    have hl := h.layered
    refine ⟨_, rfl, h.sublist (List.Sublist.refl r.list.nodes) ?_ rfl rfl rfl⟩
    exact ⟨hl.nodup, hl.headerHeight, hl.chains, hl.height, hl.level, hl.top, hl.sorted, hl.distinct, hl.count, hl.last, hl.stats⟩

theorem Record.Inserts.not_fifo {r' : Record κ ν} {new : ℕ} (hc : TotalPreorder cmp) (hu : r.Uniform cmp) (h : r.Inserts cmp new key value r')
    (hnot : ¬(Op.insert new key value).Repeats cmp r) : ¬r'.Fifo cmp := by
  intro hfifo
  have hserved := (h.lifo.valuesOf hc key).symm.trans (hfifo key)
  rw [h.values hc, Option.some.injEq, List.reverse_append, List.reverse_singleton, List.singleton_append] at hserved
  obtain ⟨a, ha, hne⟩ : ∃ a ∈ r.list.under cmp key r.arrivals, r.list.value a ≠ value := by
    by_contra hall
    exact hnot fun a ha => by_contra fun hne => hall ⟨a, ha, hne⟩
  cases hold : r.list.under cmp key r.arrivals with
  | nil =>
    rw [hold] at ha
    cases ha
  | cons b l =>
    rw [hold] at hserved
    have hb : b ∈ r.list.under cmp key r.arrivals := by
      rw [hold]
      exact List.mem_cons_self
    obtain ⟨hb, hbk⟩ := mem_under.mp hb
    obtain ⟨ha, hak⟩ := mem_under.mp ha
    have hhead : value = r.list.value b := (List.cons.inj hserved).1
    exact hne ((hu a ha b hb (hc.eq_trans hak (hc.eq_swap hbk))).trans hhead.symm)

/-- The values under the keys are served in the order of insertion as long as no key gets a second value. -/
theorem duplicates_fifo_iff (hc : TotalPreorder cmp) (random : ℕ → ℕ) (header : ℕ) (height : ℕ → ℕ) (forward : ℕ → ℕ → Option ℕ)
    (key : ℕ → κ) (value : ℕ → ν) (rng : Rng) {ops : List (Op κ ν)}
    (hops : Run.Along (recordStep cmp random) (fun r o => Valid r.list o) ⟨new true header height forward key value rng, []⟩ ops) :
    Run.Along (recordStep cmp random) (fun r o => o.Repeats cmp r) ⟨new true header height forward key value rng, []⟩ ops ↔
      ∀ p, p <+: ops → ∃ r, Run.exec (recordStep cmp random) ⟨new true header height forward key value rng, []⟩ p = some r ∧
        r.Fifo cmp := by
  refine Run.along_iff_prefixes (fun r => r.Lifo cmp ∧ r.Uniform cmp) ?_ (fun r h => h.2.fifo hc h.1) ?_
    ⟨lifo_new .., fun a ha => absurd ha List.not_mem_nil⟩ hops
  · intro r o h hvalid hok
    by_cases ho : ∃ new key value, o = .insert new key value
    · obtain ⟨new, key, value, rfl⟩ := ho
      obtain ⟨r', hr', hins⟩ := h.1.insert hc random hvalid
      exact ⟨r', hr', hins.lifo, h.2.insert hc hins hok⟩
    · obtain ⟨r', hr', hrem⟩ := h.1.remove hc random fun new key value he => ho ⟨new, key, value, he⟩
      exact ⟨r', hr', hrem.lifo, h.2.remove hrem⟩
  · intro r o r' h hvalid hbad hstep
    cases o with
    | insert new key value =>
      obtain ⟨r'', hr'', hins⟩ := h.1.insert hc random hvalid
      cases hr''.symm.trans hstep
      exact hins.not_fifo hc h.2 hbad
    | delete | deleteFirst | other => exact absurd trivial hbad

def twoValues : List (Op ℕ ℕ) := [.insert 1 5 10, .insert 2 5 11]

theorem duplicates_fifo_iff_sample :
    Run.Along (recordStep (fun x y : ℕ => (x : ℤ) - y) fun _ => 48) (fun r o => o.Repeats (fun x y : ℕ => (x : ℤ) - y) r)
        ⟨new true 0 (fun _ => 0) (fun _ _ => none) (fun _ => 0) (fun _ => 0) ⟨0, 0, 0⟩, []⟩ twoValues ↔
      ∀ p, p <+: twoValues → ∃ r, Run.exec (recordStep (fun x y : ℕ => (x : ℤ) - y) fun _ => 48)
        ⟨new true 0 (fun _ => 0) (fun _ _ => none) (fun _ => 0) (fun _ => 0) ⟨0, 0, 0⟩, []⟩ p = some r ∧
          r.Fifo fun x y : ℕ => (x : ℤ) - y :=
  duplicates_fifo_iff ⟨fun x y => by omega, fun x y z => by omega⟩ (fun _ => 48) 0 (fun _ => 0) (fun _ _ => none) (fun _ => 0)
    (fun _ => 0) ⟨0, 0, 0⟩ (by decide +kernel)

/-- The second value is served before the first. -/
theorem second_value_first :
    ∃ r, Run.exec (recordStep (fun x y : ℕ => (x : ℤ) - y) fun _ => 48)
        ⟨new true 0 (fun _ => 0) (fun _ _ => none) (fun _ => 0) (fun _ => 0) ⟨0, 0, 0⟩, []⟩ twoValues = some r ∧
      r.list.valuesOf (fun x y : ℕ => (x : ℤ) - y) 5 = some [11, 10] ∧ ¬r.Fifo fun x y : ℕ => (x : ℤ) - y := by
  have hrun : ∃ r ∈ Run.exec (recordStep (fun x y : ℕ => (x : ℤ) - y) fun _ => 48)
      ⟨new true 0 (fun _ => 0) (fun _ _ => none) (fun _ => 0) (fun _ => 0) ⟨0, 0, 0⟩, []⟩ twoValues,
      (r.list.under (fun x y : ℕ => (x : ℤ) - y) 5 r.arrivals).map r.list.value = [10, 11] ∧
        r.list.valuesOf (fun x y : ℕ => (x : ℤ) - y) 5 = some [11, 10] := by
    decide +kernel
  obtain ⟨r, hr, hinserted, hserved⟩ := hrun
  refine ⟨r, hr, hserved, fun hfifo => ?_⟩
  have heq := hserved.symm.trans (hfifo 5)
  rw [hinserted] at heq
  exact absurd heq (by decide)

end Yjc.Skiplist
