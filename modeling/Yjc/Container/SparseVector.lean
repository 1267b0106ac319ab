import Yjc.Container.Vector
import Yjc.Lib.Mem
import Yjc.Lib.Run
import Mathlib.Data.List.DropRight

/-! `container/vector.h` with slots that may be empty: the list of the slots in use, and a count of those that are set. -/

namespace Yjc
open Mem
variable {α : Type*}

/-- A slot that is not set is a null pointer; `alloced` is the length of `index`. -/
structure SparseVector (α : Type*) where
  index : List (Option α)
  active : ℕ
  count : ℕ

namespace SparseVector

def init (size : ℕ) : SparseVector α := ⟨List.replicate (if size = 0 then 1 else size) none, 0, 0⟩

def ensure (num : ℕ) (v : SparseVector α) : SparseVector α := { v with index := Vector.ensureLoop (num + 1) num v.index }

def slot (v : SparseVector α) (i : ℕ) : Option α := (v.index[i]?).join

def emptySlot (v : SparseVector α) : ℕ := Vector.emptySlot v.index v.active v.count

def setIndex (i : ℕ) (val : Option α) (v : SparseVector α) : SparseVector α :=
  let v := ensure i v
  let count := if (v.slot i).isSome then v.count - 1 else v.count
  let count := if val.isSome then count + 1 else count
  ⟨v.index.set i val, if v.active ≤ i then i + 1 else v.active, count⟩

def set (val : Option α) (v : SparseVector α) : SparseVector α := setIndex v.emptySlot val v

def insert (i : ℕ) (val : Option α) (v : SparseVector α) : SparseVector α :=
  if v.active < i then v
  else
    let v := ensure v.active v
    let index := store v.index (i + 1) (slice v.index i v.active)
    let count := if val.isSome then v.count + 1 else v.count
    let active := v.active + 1
    ⟨index.set i val, if active ≤ i then i + 1 else active, count⟩

/-- The loop of `vector_unset`, which decrements `active` in its condition. -/
def shrink (index : List (Option α)) : ℕ → ℕ → ℕ
  | 0, active => active
  | i + 1, active =>
    if (index[i]?).join.isNone then
      match active with
      | 0 => 2 ^ 32 - 1
      | active + 1 => shrink index i active
    else active

def unset (i : ℕ) (v : SparseVector α) : SparseVector α :=
  if v.index.length ≤ i then v
  else
    let count := if (v.slot i).isSome then v.count - 1 else v.count
    let index := v.index.set i none
    ⟨index, if i + 1 = v.active then shrink index i (v.active - 1) else v.active, count⟩

def remove (ix : ℕ) (v : SparseVector α) : SparseVector α :=
  if v.active ≤ ix then v
  else
    let count := if (v.slot ix).isSome then v.count - 1 else v.count
    let active := v.active - 1
    let n := active - ix
    let index := store v.index ix (slice v.index (ix + 1) (ix + 1 + n))
    ⟨index.set active none, active, count⟩

/-- The fuel bounds the slots from `i` on. -/
def compactLoop : ℕ → ℕ → SparseVector α → SparseVector α
  | 0, _, v => v
  | fuel + 1, i, v =>
    if i < v.active then
      if (v.slot i).isNone then compactLoop fuel i (remove i v) else compactLoop fuel (i + 1) v
    else v

def compact (v : SparseVector α) : SparseVector α := compactLoop v.active 0 v

def push (val : Option α) (v : SparseVector α) : SparseVector α :=
  let idx := v.active
  setIndex idx val (ensure idx v)

/-- `none`: the slot before the first. -/
def pop (v : SparseVector α) : Option (Option α × SparseVector α) :=
  if v.active = 0 then none else some (v.slot (v.active - 1), remove (v.active - 1) v)

def swap (i j : ℕ) (v : SparseVector α) : SparseVector α :=
  if v.active < 2 then v
  else if i = j then v
  else { v with index := (v.index.set i (v.slot j)).set j (v.slot i) }

def reverseLoop : ℕ → SparseVector α → SparseVector α
  | 0, v => v
  | c + 1, v => reverseLoop c (swap c (v.active - (c + 1)) v)

def reverse (v : SparseVector α) : SparseVector α := reverseLoop (v.active / 2) v

inductive Op (α : Type*)
  | set (val : Option α)
  | setIndex (i : ℕ) (val : Option α)
  | insert (i : ℕ) (val : Option α)
  | unset (i : ℕ)
  | remove (ix : ℕ)
  | compact
  | push (val : Option α)
  | pop
  | swap (i j : ℕ)
  | reverse

def step (v : SparseVector α) : Op α → Option (SparseVector α)
  | .set val => some (set val v)
  | .setIndex i val => some (setIndex i val v)
  | .insert i val => some (insert i val v)
  | .unset i => some (unset i v)
  | .remove ix => some (remove ix v)
  | .compact => some (compact v)
  | .push val => some (push val v)
  | .pop => (pop v).map Prod.snd
  | .swap i j => some (swap i j v)
  | .reverse => some (reverse v)

def Valid (v : SparseVector α) : Op α → Prop
  | .pop => 0 < v.active
  | .swap i j => i < v.active ∧ j < v.active
  | .set _ | .setIndex .. | .insert .. | .unset _ | .remove _ | .compact | .push _ | .reverse => True

/-! ## The slots in use -/

/-- The slot `i` is set, and the slots before it that were not in use are empty. -/
def putAt (l : List (Option α)) (i : ℕ) (val : Option α) : List (Option α) :=
  (l ++ List.replicate (i + 1 - l.length) none).set i val

def slotsStep (l : List (Option α)) : Op α → List (Option α)
  | .set val => putAt l (l.findIdx Option.isNone) val
  | .setIndex i val => putAt l i val
  | .insert i val => if i ≤ l.length then l.take i ++ val :: l.drop i else l
  | .unset i => if i + 1 = l.length then (l.take i).rdropWhile Option.isNone else l.set i none
  | .remove ix => l.eraseIdx ix
  | .compact => l.filter Option.isSome
  | .push val => l ++ [val]
  | .pop => l.dropLast
  | .swap i j => (l.set i (l[j]?).join).set j (l[i]?).join
  | .reverse => l.reverse

/-- The slots of `l` are in use, and those above them are empty. -/
def Rep (v : SparseVector α) (l : List (Option α)) : Prop :=
  ∃ n, v = ⟨l ++ List.replicate n none, l.length, l.countP Option.isSome⟩ ∧ 0 < l.length + n

variable {v : SparseVector α} {l : List (Option α)}

theorem rep_init (size : ℕ) : Rep (init size : SparseVector α) [] := by
  refine ⟨if size = 0 then 1 else size, rfl, ?_⟩
  rw [List.length_nil]
  split_ifs <;> omega

theorem ensureLoop_spec (num fuel : ℕ) (index : List (Option α)) (hpos : 0 < index.length) (hfuel : num < index.length + fuel) :
    ∃ n, Vector.ensureLoop fuel num index = index ++ List.replicate n none ∧ num < index.length + n := by
  induction fuel generalizing index with
  | zero => exact ⟨0, by rw [Vector.ensureLoop, List.replicate_zero, List.append_nil], hfuel⟩
  | succ fuel ih =>
    unfold Vector.ensureLoop
    split_ifs with hlt
    · exact ⟨0, by rw [List.replicate_zero, List.append_nil], hlt⟩
    · have hlen : (index ++ List.replicate index.length (none : Option α)).length = index.length + index.length := by
        rw [List.length_append, List.length_replicate]
      obtain ⟨n, hn, hnum⟩ := ih (index ++ List.replicate index.length none) (by omega) (by omega)
      refine ⟨index.length + n, ?_, by omega⟩
      rw [hn, List.append_assoc, ← List.replicate_add]

theorem Rep.ensure (h : Rep v l) (num : ℕ) :
    ∃ n, ensure num v = ⟨l ++ List.replicate n none, l.length, l.countP Option.isSome⟩ ∧ num < l.length + n := by
  obtain ⟨n, rfl, hpos⟩ := h
  have hlen : (l ++ List.replicate n none).length = l.length + n := by rw [List.length_append, List.length_replicate]
  obtain ⟨m, hm, hnum⟩ := ensureLoop_spec num (num + 1) (l ++ List.replicate n none) (by omega) (by omega)
  refine ⟨n + m, ?_, by omega⟩
  rw [SparseVector.ensure, hm, List.append_assoc, ← List.replicate_add]

theorem slot_eq (l : List (Option α)) (n active count i : ℕ) :
    slot ⟨l ++ List.replicate n none, active, count⟩ i = (l[i]?).join := by
  unfold slot
  dsimp only
  rcases Nat.lt_or_ge i l.length with hlt | hge
  · rw [List.getElem?_append_left hlt]
  · rw [List.getElem?_append_right hge, List.getElem?_eq_none hge, List.getElem?_replicate]
    split_ifs <;> rfl

theorem countP_set_slot {i : ℕ} (hi : i < l.length) (val : Option α) :
    (l.set i val).countP Option.isSome =
      (if (l[i]?).join.isSome then l.countP Option.isSome - 1 else l.countP Option.isSome) + if val.isSome then 1 else 0 := by
  rw [List.countP_set hi, List.getElem?_eq_getElem hi, Option.join_some]
  split_ifs <;> rfl

theorem Rep.setIndex (h : Rep v l) (i : ℕ) (val : Option α) : Rep (setIndex i val v) (putAt l i val) := by
  obtain ⟨n, hens, hlt⟩ := h.ensure i
  -- the slots up to `i` count as slots in use from now on
  have hpad : l ++ List.replicate n none =
      (l ++ List.replicate (i + 1 - l.length) none) ++ List.replicate (n - (i + 1 - l.length)) none := by
    rw [List.append_assoc, ← List.replicate_add, Nat.add_sub_cancel' (by omega)]
  have hlen : (l ++ List.replicate (i + 1 - l.length) (none : Option α)).length = max l.length (i + 1) := by
    rw [List.length_append, List.length_replicate]
    omega
  have hcount : l.countP Option.isSome = (l ++ List.replicate (i + 1 - l.length) none).countP Option.isSome := by
    rw [List.countP_append, List.countP_replicate, if_neg (by exact Bool.false_ne_true), Nat.add_zero]
  unfold putAt SparseVector.setIndex
  dsimp only
  rw [hens]
  dsimp only
  rw [hpad, hcount, slot_eq]
  generalize l ++ List.replicate (i + 1 - l.length) (none : Option α) = l₁ at hlen ⊢
  refine ⟨n - (i + 1 - l.length), ?_, by rw [List.length_set]; omega⟩
  rw [List.set_append_left _ _ (by omega), countP_set_slot (by omega), List.length_set, hlen]
  congr 1
  · split_ifs <;> omega
  · split_ifs <;> rfl

theorem Rep.emptySlot (h : Rep v l) : v.emptySlot = l.findIdx Option.isNone := by
  obtain ⟨n, rfl, -⟩ := h
  unfold SparseVector.emptySlot Vector.emptySlot
  dsimp only
  rw [List.take_left]
  split_ifs with hfull hzero
  · rw [eq_comm, List.countP_eq_length] at hfull
    rw [eq_comm, List.findIdx_eq_length]
    intro x hx
    rw [← Option.not_isSome, hfull x hx]
    rfl
  · rw [List.length_eq_zero_iff] at hzero
    rw [hzero]
    rfl
  · rfl

theorem store_up (l₁ l₂ : List (Option α)) (n : ℕ) (val : Option α) :
    (store ((l₁ ++ l₂) ++ List.replicate (n + 1) none) (l₁.length + 1)
        (slice ((l₁ ++ l₂) ++ List.replicate (n + 1) none) l₁.length (l₁ ++ l₂).length)).set l₁.length val =
      (l₁ ++ val :: l₂) ++ List.replicate n none := by
  obtain ⟨x, hx⟩ : ∃ x, (l₂ ++ List.replicate (n + 1) none).take 1 = [x] := by
    cases l₂ with
    | nil => exact ⟨none, rfl⟩
    | cons x l₂ => exact ⟨x, rfl⟩
  have hslice : slice ((l₁ ++ l₂) ++ List.replicate (n + 1) none) l₁.length (l₁ ++ l₂).length = l₂ := by
    rw [slice_append_left (Nat.le_refl _), slice, List.take_length, List.drop_left]
  have hdrop : (l₁ ++ l₂ ++ List.replicate (n + 1) none).drop (l₁.length + 1 + l₂.length) = List.replicate n none := by
    rw [show l₁.length + 1 + l₂.length = (l₁ ++ l₂).length + 1 by rw [List.length_append]; omega, List.drop_length_add_append]
    rfl
  rw [hslice, store, hdrop, List.append_assoc l₁, List.take_length_add_append, hx, List.append_assoc, List.append_assoc,
    List.set_append_right _ _ (Nat.le_refl _), Nat.sub_self, List.append_assoc]
  rfl

theorem Rep.insert (h : Rep v l) (i : ℕ) (val : Option α) :
    Rep (insert i val v) (if i ≤ l.length then l.take i ++ val :: l.drop i else l) := by
  obtain ⟨n, hens, hlt⟩ := h.ensure v.active
  have hactive : v.active = l.length := by
    obtain ⟨m, rfl, -⟩ := h
    rfl
  unfold SparseVector.insert
  rw [hactive] at hens hlt ⊢
  by_cases hle : i ≤ l.length
  · obtain ⟨l₁, l₂, rfl, rfl⟩ : ∃ l₁ l₂, l = l₁ ++ l₂ ∧ l₁.length = i :=
      ⟨l.take i, l.drop i, (List.take_append_drop i l).symm, List.length_take_of_le hle⟩
    obtain ⟨m, rfl⟩ : ∃ m, n = m + 1 := ⟨n - 1, by omega⟩
    rw [if_neg (by omega), if_pos hle]
    dsimp only
    rw [hens]
    dsimp only
    rw [store_up, List.take_left, List.drop_left]
    have hlen : (l₁ ++ val :: l₂).length = (l₁ ++ l₂).length + 1 := by
      rw [List.length_append, List.length_append, List.length_cons, Nat.add_assoc]
    refine ⟨m, ?_, by omega⟩
    rw [if_neg (by omega), hlen, List.countP_append, List.countP_append, List.countP_cons]
    congr 1
    split_ifs <;> omega
  · rw [if_pos (by omega), if_neg hle]
    exact h

theorem store_down (l₁ l₂ : List (Option α)) (x : Option α) (n : ℕ) :
    (store ((l₁ ++ x :: l₂) ++ List.replicate n none) l₁.length
        (slice ((l₁ ++ x :: l₂) ++ List.replicate n none) (l₁.length + 1) (l₁ ++ x :: l₂).length)).set (l₁ ++ l₂).length none =
      (l₁ ++ l₂) ++ List.replicate (n + 1) none := by
  have hslice : slice ((l₁ ++ x :: l₂) ++ List.replicate n none) (l₁.length + 1) (l₁ ++ x :: l₂).length = l₂ := by
    rw [slice_append_left (Nat.le_refl _), slice, List.take_length, List.drop_length_add_append]
    rfl
  obtain ⟨y, hy⟩ : ∃ y, (x :: l₂).drop l₂.length = [y] :=
    List.length_eq_one_iff.mp (by rw [List.length_drop, List.length_cons, Nat.add_sub_cancel_left])
  have hdrop : ((l₁ ++ x :: l₂) ++ List.replicate n none).drop (l₁.length + l₂.length) = y :: List.replicate n none := by
    rw [List.append_assoc, List.drop_length_add_append, List.drop_append_of_le_length (by rw [List.length_cons]; omega), hy]
    rfl
  rw [hslice, store, hdrop, List.append_assoc l₁ (x :: l₂), List.take_left, List.set_append_right _ _ (Nat.le_refl _),
    Nat.sub_self]
  rfl

theorem Rep.remove (h : Rep v l) (ix : ℕ) : Rep (remove ix v) (l.eraseIdx ix) := by
  obtain ⟨n, rfl, hpos⟩ := h
  unfold SparseVector.remove
  rcases Nat.lt_or_ge ix l.length with hlt | hge
  · obtain ⟨l₁, x, l₂, rfl, rfl⟩ : ∃ l₁ x l₂, l = l₁ ++ x :: l₂ ∧ l₁.length = ix :=
      ⟨l.take ix, l[ix], l.drop (ix + 1), by rw [List.getElem_cons_drop, List.take_append_drop],
        List.length_take_of_le (Nat.le_of_lt hlt)⟩
    have hlen : (l₁ ++ x :: l₂).length = (l₁ ++ l₂).length + 1 := by
      rw [List.length_append, List.length_append, List.length_cons, Nat.add_assoc]
    have hend : l₁.length + 1 + ((l₁ ++ l₂).length - l₁.length) = (l₁ ++ x :: l₂).length := by
      rw [hlen, List.length_append]
      omega
    have herase : (l₁ ++ x :: l₂).eraseIdx l₁.length = l₁ ++ l₂ := by
      rw [List.eraseIdx_append_of_length_le (Nat.le_refl _), Nat.sub_self]
      rfl
    rw [if_neg (by exact Nat.not_le.mpr hlt)]
    dsimp only
    rw [hlen, Nat.add_sub_cancel, hend, store_down, herase, slot_eq, List.getElem?_append_right (Nat.le_refl _), Nat.sub_self,
      List.getElem?_cons_zero, Option.join_some]
    refine ⟨n + 1, ?_, by omega⟩
    congr 1
    rw [List.countP_append, List.countP_append, List.countP_cons]
    split_ifs <;> omega
  · rw [if_pos hge, List.eraseIdx_of_length_le hge]
    exact ⟨n, rfl, hpos⟩

theorem shrink_eq (l₀ rest : List (Option α)) :
    shrink (l₀ ++ rest) l₀.length l₀.length = (l₀.rdropWhile Option.isNone).length := by
  induction l₀ using List.reverseRecOn generalizing rest with
  | nil => rfl
  | append_singleton l₀ x ih =>
    have hget : (l₀ ++ [x] ++ rest)[l₀.length]? = some x := by
      rw [List.append_assoc, List.getElem?_append_right (Nat.le_refl _), Nat.sub_self]
      rfl
    rw [List.length_append, List.length_singleton, shrink, hget, Option.join_some, List.rdropWhile_concat]
    split_ifs with hx
    · rw [List.append_assoc]
      exact ih _
    · rw [List.length_append, List.length_singleton]

theorem rdropWhile_append_replicate (l₀ : List (Option α)) :
    ∃ k, l₀ = l₀.rdropWhile Option.isNone ++ List.replicate k none := by
  induction l₀ using List.reverseRecOn with
  | nil => exact ⟨0, rfl⟩
  | append_singleton l₀ x ih =>
    rw [List.rdropWhile_concat]
    split_ifs with hx
    · obtain ⟨k, hk⟩ := ih
      refine ⟨k + 1, ?_⟩
      rw [List.replicate_succ', ← List.append_assoc, ← hk, Option.isNone_iff_eq_none.mp hx]
    · exact ⟨0, (List.append_nil _).symm⟩

theorem Rep.unset (h : Rep v l) (i : ℕ) :
    Rep (unset i v) (if i + 1 = l.length then (l.take i).rdropWhile Option.isNone else l.set i none) := by
  obtain ⟨n, rfl, hpos⟩ := h
  unfold SparseVector.unset
  dsimp only
  rw [slot_eq, List.length_append, List.length_replicate]
  rcases Nat.lt_or_ge i l.length with hlt | hge
  · rw [if_neg (by omega)]
    by_cases hlast : i + 1 = l.length
    · obtain ⟨l₀, x, rfl⟩ : ∃ l₀ x, l = l₀ ++ [x] := by
        rcases List.eq_nil_or_concat' l with rfl | hl
        · cases hlt
        · exact hl
      have hi : i = l₀.length := by
        rw [List.length_append, List.length_singleton] at hlast
        omega
      subst hi
      obtain ⟨k, hk⟩ := rdropWhile_append_replicate l₀
      have hset : (l₀ ++ [x] ++ List.replicate n none).set l₀.length none = l₀ ++ List.replicate (n + 1) none := by
        rw [List.append_assoc, List.set_append_right _ _ (Nat.le_refl _), Nat.sub_self]
        rfl
      have hcount : (l₀ ++ [x]).countP Option.isSome = (l₀.rdropWhile Option.isNone).countP Option.isSome + if x.isSome then 1 else 0 := by
        rw [List.countP_append, List.countP_singleton]
        conv_lhs => rw [hk]
        rw [List.countP_append, List.countP_replicate, if_neg (by exact Bool.false_ne_true), Nat.add_zero]
      rw [if_pos hlast, if_pos hlast, hset, List.length_append, List.length_singleton, Nat.add_sub_cancel, shrink_eq,
        List.take_left, hcount, List.getElem?_append_right (Nat.le_refl _), Nat.sub_self, List.getElem?_cons_zero, Option.join_some]
      refine ⟨k + (n + 1), ?_, by omega⟩
      rw [List.replicate_add k, ← List.append_assoc, ← hk]
      congr 1
      split_ifs <;> omega
    · rw [if_neg hlast, if_neg hlast, List.set_append_left _ _ hlt]
      refine ⟨n, ?_, by rw [List.length_set]; exact hpos⟩
      rw [countP_set_slot hlt, List.length_set]
      rfl
  · have hset : (l ++ List.replicate n none).set i none = l ++ List.replicate n none := by
      rw [List.set_append_right _ _ hge, List.set_replicate_self]
    have hcount : (if ((l[i]?).join).isSome then l.countP Option.isSome - 1 else l.countP Option.isSome) = l.countP Option.isSome := by
      rw [List.getElem?_eq_none hge]
      rfl
    rw [hcount, hset, if_neg (by omega : ¬i + 1 = l.length), if_neg (by omega : ¬i + 1 = l.length), List.set_eq_of_length_le hge]
    refine ⟨n, ?_, hpos⟩
    split_ifs <;> rfl

theorem Rep.active (h : Rep v l) : v.active = l.length := by
  obtain ⟨n, rfl, -⟩ := h
  rfl

theorem Rep.slot (h : Rep v l) (i : ℕ) : v.slot i = (l[i]?).join := by
  obtain ⟨n, rfl, -⟩ := h
  exact slot_eq ..

theorem Rep.compactLoop (h : Rep v l) (fuel i : ℕ) (hfuel : l.length ≤ i + fuel) :
    Rep (compactLoop fuel i v) (l.take i ++ (l.drop i).filter Option.isSome) := by
  induction fuel generalizing i v l with
  | zero =>
    have hi : l.length ≤ i := hfuel
    rw [List.take_of_length_le hi, List.drop_eq_nil_of_le hi, List.filter_nil, List.append_nil]
    exact h
  | succ fuel ih =>
    unfold SparseVector.compactLoop
    rw [h.active, h.slot]
    rcases Nat.lt_or_ge i l.length with hi | hi
    · have hdrop : l.drop i = l[i] :: l.drop (i + 1) := List.drop_eq_getElem_cons hi
      rw [if_pos hi, List.getElem?_eq_getElem hi, Option.join_some, hdrop]
      cases hx : l[i] with
      | none =>
        have hrest := ih (h.remove i) i (by rw [List.length_eraseIdx_of_lt hi]; omega)
        rw [List.take_eraseIdx_eq_take_of_le _ _ _ (Nat.le_refl i), List.eraseIdx_eq_take_drop_succ,
          List.drop_left' (List.length_take_of_le (Nat.le_of_lt hi))] at hrest
        exact hrest
      | some x =>
        have hrest := ih h (i + 1) (by omega)
        rw [List.take_succ_eq_append_getElem hi, hx, List.append_assoc] at hrest
        exact hrest
    · rw [if_neg (Nat.not_lt.mpr hi), List.take_of_length_le hi, List.drop_eq_nil_of_le hi, List.filter_nil, List.append_nil]
      exact h

theorem Rep.push (h : Rep v l) (val : Option α) : Rep (push val v) (l ++ [val]) := by
  obtain ⟨n, hens, hlt⟩ := h.ensure v.active
  have hput : putAt l l.length val = l ++ [val] := by
    rw [putAt, Nat.add_sub_cancel_left, List.set_append_right _ _ (Nat.le_refl _), Nat.sub_self]
    rfl
  have hrep : Rep (SparseVector.ensure v.active v) l := ⟨n, hens, Nat.lt_of_le_of_lt (Nat.zero_le _) hlt⟩
  have hset := hrep.setIndex v.active val
  rw [h.active, hput] at hset
  unfold SparseVector.push
  rw [h.active]
  exact hset

theorem Rep.pop (h : Rep v l) (hpos : 0 < l.length) :
    ∃ v', pop v = some ((l.getLast?).join, v') ∧ Rep v' l.dropLast := by
  have hrem := h.remove (l.length - 1)
  rw [List.eraseIdx_length_sub_one] at hrem
  unfold SparseVector.pop
  rw [h.active, if_neg (by omega), h.slot, ← List.getLast?_eq_getElem?]
  exact ⟨_, rfl, hrem⟩

theorem Rep.swap (h : Rep v l) {i j : ℕ} (hi : i < l.length) (hj : j < l.length) :
    Rep (swap i j v) ((l.set i (l[j]?).join).set j (l[i]?).join) := by
  rw [List.getElem?_eq_getElem hi, List.getElem?_eq_getElem hj, Option.join_some, Option.join_some]
  have hperm := List.set_set_perm hi hj
  obtain ⟨n, rfl, hpos⟩ := h
  unfold SparseVector.swap
  dsimp only
  by_cases hij : i = j
  · subst hij
    rw [List.set_getElem_self, List.set_getElem_self, if_pos rfl, ite_self]
    exact ⟨n, rfl, hpos⟩
  · rw [if_neg (by omega), if_neg hij, slot_eq, slot_eq, List.getElem?_eq_getElem hi, List.getElem?_eq_getElem hj,
      Option.join_some, Option.join_some, List.set_append_left _ _ hi, List.set_append_left _ _ (by rw [List.length_set]; exact hj)]
    refine ⟨n, ?_, by rw [List.length_set, List.length_set]; exact hpos⟩
    rw [List.length_set, List.length_set, hperm.countP_eq]

theorem Rep.reverseLoop (h : Rep v l) (c : ℕ) (hc : 2 * c ≤ l.length) :
    ∃ l', Rep (reverseLoop c v) l' ∧ l'.length = l.length ∧
      ∀ k < l.length, l'[k]? = if k < c ∨ l.length - 1 - k < c then l[l.length - 1 - k]? else l[k]? := by
  induction c generalizing v l with
  | zero => exact ⟨l, h, rfl, fun k _ => (if_neg (by omega)).symm⟩
  | succ c ih =>
    have hi : c < l.length := by omega
    have hj : l.length - (c + 1) < l.length := by omega
    have hswap := h.swap hi hj
    rw [List.getElem?_eq_getElem hi, List.getElem?_eq_getElem hj, Option.join_some, Option.join_some] at hswap
    have hlen : ((l.set c l[l.length - (c + 1)]).set (l.length - (c + 1)) l[c]).length = l.length := by
      rw [List.length_set, List.length_set]
    obtain ⟨l', hrep, hlen', hget⟩ := ih hswap (by omega)
    unfold SparseVector.reverseLoop
    rw [h.active]
    refine ⟨l', hrep, hlen'.trans hlen, fun k hk => ?_⟩
    have hswapped : ∀ m < l.length, ((l.set c l[l.length - (c + 1)]).set (l.length - (c + 1)) l[c])[m]? =
        if m = c ∨ m = l.length - 1 - c then l[l.length - 1 - m]? else l[m]? := by
      intro m hm
      rw [List.getElem?_set, List.getElem?_set, List.length_set]
      by_cases hmj : l.length - (c + 1) = m
      · rw [if_pos hmj, if_pos hj, if_pos (by omega), show l.length - 1 - m = c by omega, List.getElem?_eq_getElem hi]
      · rw [if_neg hmj]
        by_cases hmc : c = m
        · rw [if_pos hmc, if_pos hi, if_pos (by omega), show l.length - 1 - m = l.length - (c + 1) by omega,
            List.getElem?_eq_getElem hj]
        · rw [if_neg hmc, if_neg (by omega)]
    rw [hget k (by omega), hlen]
    by_cases hk' : k < c ∨ l.length - 1 - k < c
    · rw [if_pos hk', hswapped _ (by omega), if_neg (by omega), if_pos (by omega)]
    · rw [if_neg hk', hswapped k hk]
      exact if_congr (by omega) rfl rfl

theorem Rep.reverse (h : Rep v l) : Rep (reverse v) l.reverse := by
  obtain ⟨l', hrep, hlen, hget⟩ := h.reverseLoop (l.length / 2) (by omega)
  have hl' : l' = l.reverse := by
    apply List.ext_getElem?
    intro k
    rcases Nat.lt_or_ge k l.length with hk | hk
    · rw [hget k hk, List.getElem?_reverse hk]
      split_ifs with hmid
      · rfl
      · rw [show l.length - 1 - k = k by omega]
    · rw [List.getElem?_eq_none (by omega), List.getElem?_eq_none (by rw [List.length_reverse]; exact hk)]
  unfold SparseVector.reverse
  rw [h.active, ← hl']
  exact hrep

theorem Rep.set (h : Rep v l) (val : Option α) : Rep (set val v) (putAt l (l.findIdx Option.isNone) val) := by
  have hset := h.setIndex v.emptySlot val
  rw [h.emptySlot] at hset
  rw [SparseVector.set, h.emptySlot]
  exact hset

theorem Rep.compact (h : Rep v l) : Rep (compact v) (l.filter Option.isSome) := by
  have hcompact := h.compactLoop l.length 0 (by omega)
  rw [List.take_zero, List.drop_zero, List.nil_append, ← h.active] at hcompact
  exact hcompact

/-! ## Sequences of operations -/

theorem Rep.step (h : Rep v l) {op : Op α} (hop : Valid v op) : ∃ v', step v op = some v' ∧ Rep v' (slotsStep l op) := by
  cases op with
  | set val => exact ⟨_, rfl, h.set val⟩
  | setIndex i val => exact ⟨_, rfl, h.setIndex i val⟩
  | insert i val => exact ⟨_, rfl, h.insert i val⟩
  | unset i => exact ⟨_, rfl, h.unset i⟩
  | remove ix => exact ⟨_, rfl, h.remove ix⟩
  | compact => exact ⟨_, rfl, h.compact⟩
  | push val => exact ⟨_, rfl, h.push val⟩
  | pop =>
    obtain ⟨v', hpop, hrep⟩ := h.pop (by rw [← h.active]; exact hop)
    exact ⟨v', by rw [SparseVector.step, hpop, Option.map_some], hrep⟩
  | swap i j =>
    change i < v.active ∧ j < v.active at hop
    rw [h.active] at hop
    exact ⟨_, rfl, h.swap hop.1 hop.2⟩
  | reverse => exact ⟨_, rfl, h.reverse⟩

def slots (v : SparseVector α) : List (Option α) := v.index.take v.active

theorem Rep.slots (h : Rep v l) : v.slots = l := by
  obtain ⟨n, rfl, -⟩ := h
  exact List.take_left

/-- What holds of a vector between two operations, and what the next one does to its slots. -/
structure Counters (v : SparseVector α) : Prop where
  active : v.active ≤ v.index.length
  above : ∀ i, v.active ≤ i → v.slot i = none
  count : v.count = v.index.countP Option.isSome
  set : ∀ val, v.slot v.emptySlot = none ∧ (∀ i < v.emptySlot, v.slot i ≠ none) ∧
    (v.set val).slots = putAt v.slots v.emptySlot val
  insert : ∀ i ≤ v.active, ∀ val, (v.insert i val).slots = v.slots.take i ++ val :: v.slots.drop i
  remove : ∀ i < v.active, (v.remove i).slots = v.slots.take i ++ v.slots.drop (i + 1)
  compact : v.compact.slots = v.slots.filter Option.isSome
  unset : ∀ i, (v.unset i).active < v.active → ∀ x ∈ (v.unset i).slots.getLast?, x.isSome = true

theorem Rep.counters (h : Rep v l) : Counters v where
  active := by
    obtain ⟨n, rfl, -⟩ := h
    rw [List.length_append]
    exact Nat.le_add_right ..
  above i hi := by
    rw [h.active] at hi
    rw [h.slot, List.getElem?_eq_none hi]
    rfl
  count := by
    obtain ⟨n, rfl, -⟩ := h
    rw [List.countP_append, List.countP_replicate, if_neg (by exact Bool.false_ne_true), Nat.add_zero]
  set val := by
    rw [(h.set val).slots, h.slots, h.emptySlot]
    refine ⟨?_, fun i hi => ?_, rfl⟩
    · rw [h.slot]
      rcases Nat.lt_or_ge (l.findIdx Option.isNone) l.length with hlt | hge
      · rw [List.getElem?_eq_getElem hlt, Option.join_some]
        exact Option.isNone_iff_eq_none.mp (List.findIdx_getElem (w := hlt))
      · rw [List.getElem?_eq_none hge]
        rfl
    · have hlt := Nat.lt_of_lt_of_le hi List.findIdx_le_length
      rw [h.slot, List.getElem?_eq_getElem hlt, Option.join_some]
      intro hnone
      have hnot := List.not_of_lt_findIdx hi
      rw [hnone] at hnot
      cases hnot
  insert i hi val := by
    rw [(h.insert i val).slots, if_pos (by rw [← h.active]; exact hi), h.slots]
  remove i _ := by rw [(h.remove i).slots, h.slots, List.eraseIdx_eq_take_drop_succ]
  compact := by rw [h.compact.slots, h.slots]
  unset i hshort x hx := by
    have hun := h.unset i
    rw [hun.active, h.active] at hshort
    rw [hun.slots] at hx
    split_ifs at hshort hx
    · have hne : (l.take i).rdropWhile Option.isNone ≠ [] := by
        intro hnil
        rw [hnil] at hx
        cases hx
      have hlast := List.rdropWhile_last_not Option.isNone (l.take i) hne
      rw [List.getLast?_eq_some_getLast hne, Option.mem_some_iff] at hx
      rw [hx] at hlast
      rwa [← Option.not_isSome, Bool.not_eq_true', Bool.not_eq_false] at hlast
    · rw [List.length_set] at hshort
      exact absurd hshort (Nat.lt_irrefl _)

/-- In every run the counters are right, and the slots in use are those of the list that the operations describe. -/
theorem vector_keeps_counters (size : ℕ) (ops : List (Op α)) (hops : Run.Along step Valid (init size) ops) :
    ∃ v, Run.exec step (init size) ops = some v ∧ Counters v ∧ v.slots = ops.foldl slotsStep [] := by
  have hgood : ∀ (hist : List (Op α)) v op, Rep v (hist.foldl slotsStep []) → Valid v op →
      ∃ v', step v op = some v' ∧ Rep v' ((hist ++ [op]).foldl slotsStep []) := by
    intro hist v op h hop
    rw [List.foldl_append]
    exact h.step hop
  obtain ⟨v, hv, h⟩ := Run.exec_of_along (fun hist v => Rep v (hist.foldl slotsStep [])) hgood [] (rep_init size) hops
  exact ⟨v, hv, h.counters, h.slots⟩

instance decidableValid (v : SparseVector α) : ∀ op, Decidable (Valid v op)
  | .pop => inferInstanceAs (Decidable (0 < v.active))
  | .swap i j => inferInstanceAs (Decidable (i < v.active ∧ j < v.active))
  | .set _ | .setIndex .. | .insert .. | .unset _ | .remove _ | .compact | .push _ | .reverse => isTrue trivial

theorem vector_keeps_counters_sample :
    ∃ v, Run.exec step (init 0 : SparseVector ℕ) [.push (some 1), .setIndex 4 (some 2), .set (some 3), .insert 1 none, .pop,
        .unset 2, .swap 0 1, .reverse, .compact] = some v ∧ Counters v ∧
      v.slots = [.push (some 1), .setIndex 4 (some 2), .set (some 3), .insert 1 none, .pop, .unset 2, .swap 0 1, .reverse,
        .compact].foldl slotsStep [] :=
  vector_keeps_counters 0 _ (by decide +kernel)

end SparseVector
end Yjc
