import Yjc.Container.SparseVector
import Mathlib.Algebra.Group.Nat.Defs
import Mathlib.Algebra.Group.Int.Defs

/-! `container/vector.h`: the two functions that look for a value in the slots. -/

namespace Yjc.SparseVector
variable {α : Type*}

/-- An `unsigned int` field less one. -/
def dec : ℕ → ℕ
  | 0 => 2 ^ 32 - 1
  | n + 1 => n

/-- The `do` loop of `vector_unset_value`. -/
def trim (index : List (Option α)) : ℕ → ℕ → ℕ
  | 0, active => dec active
  | i + 1, active => if (index[i]?).join.isNone then trim index i (dec active) else dec active

def unsetValue [DecidableEq α] (val : Option α) (v : SparseVector α) : SparseVector α :=
  let i := (v.index.take v.active).findIdx fun x => decide (x = val)
  -- `i` is `active` when the loop has come to its end
  let u : SparseVector α := if i < v.active then ⟨v.index.set i none, v.active, dec v.count⟩ else v
  if i + 1 = v.active then { u with active := trim u.index i u.active } else u

def matchesValue [DecidableEq α] (val : Option α) : Option (Option α → Option α → ℤ) → Option α → Bool
  | some fn, var => decide (fn var val = 0)
  | none, var => decide (var = val)

/-- The index is an `int`; without a result it has overflowed. -/
def findLoop (p : Option α → Bool) : ℕ → List (Option α) → Option ℕ
  | i, [] => some i
  | i, var :: vars => if p var then some i else if i + 1 < 2 ^ 31 then findLoop p (i + 1) vars else none

/-- `stack` is what the memory of `i` holds on entry: `vector_foreach` sets `i` only when there are slots in use. -/
def find [DecidableEq α] (stack : Int32) (val : Option α) (fn : Option (Option α → Option α → ℤ)) (v : SparseVector α) :
    Option ℤ :=
  let i : Option ℤ :=
    if 0 < v.active then (findLoop (matchesValue val fn) 0 (v.index.take v.active)).map fun i => (i : ℤ) else some stack.toInt
  -- `==` converts `i` to `unsigned int`
  i.map fun i => if i % 2 ^ 32 = (v.active : ℤ) then -1 else i

/-! ## Unsetting a value -/

structure Consistent (v : SparseVector α) : Prop where
  active : v.active ≤ v.index.length
  above : ∀ i, v.active ≤ i → v.slot i = none
  count : v.count = v.index.countP Option.isSome

/-- The first of the slots in use that `p` holds of is `i`. -/
def First (v : SparseVector α) (p : Option α → Bool) (i : ℕ) : Prop :=
  i < v.active ∧ p (v.slot i) = true ∧ ∀ j < i, p (v.slot j) = false

structure Cleared [DecidableEq α] (v : SparseVector α) (val : Option α) (v' : SparseVector α) : Prop where
  alloced : v'.index.length = v.index.length
  first : ∀ i, First v (fun x => decide (x = val)) i → v'.slot i = none
  others : ∀ i, ¬First v (fun x => decide (x = val)) i → v'.slot i = v.slot i

variable {v : SparseVector α}

theorem Rep.consistent {l : List (Option α)} (h : Rep v l) : Consistent v :=
  ⟨h.counters.active, h.counters.above, h.counters.count⟩

theorem dec_ne (n : ℕ) : dec n ≠ n := by
  cases n with
  | zero => decide
  | succ n => exact Nat.ne_of_lt (Nat.lt_succ_self n)

theorem trim_spec (index : List (Option α)) (i : ℕ) :
    trim index i (i + 1) ≤ i ∧ ∀ j < i, trim index i (i + 1) ≤ j → (index[j]?).join = none := by
  induction i with
  | zero => exact ⟨Nat.le_refl _, fun j hj => absurd hj (Nat.not_lt_zero j)⟩
  | succ i ih =>
    unfold trim
    change ite _ (trim index i (i + 1)) (i + 1) ≤ _ ∧ ∀ j < i + 1, ite _ (trim index i (i + 1)) (i + 1) ≤ j → _
    split_ifs with hnone
    · refine ⟨by omega, fun j hj hle => ?_⟩
      rcases Nat.lt_succ_iff_lt_or_eq.mp hj with hlt | rfl
      · exact ih.2 j hlt hle
      · exact Option.isNone_iff_eq_none.mp hnone
    · exact ⟨Nat.le_refl _, fun j hj hle => absurd hle (Nat.not_le.mpr hj)⟩

theorem slot_eq_getElem (hactive : v.active ≤ v.index.length) {i : ℕ} (hi : i < (v.index.take v.active).length) :
    (v.index.take v.active)[i] = v.slot i := by
  have hlt : i < v.active := Nat.lt_of_lt_of_le hi (List.length_take_le ..)
  rw [List.getElem_take, slot, List.getElem?_eq_getElem (Nat.lt_of_lt_of_le hlt hactive), Option.join_some]

theorem first_findIdx (hactive : v.active ≤ v.index.length) (p : Option α → Bool) :
    First v p ((v.index.take v.active).findIdx p) ∨
      (v.index.take v.active).findIdx p = v.active ∧ ∀ i < v.active, p (v.slot i) = false := by
  have hlen : (v.index.take v.active).length = v.active := List.length_take_of_le hactive
  have hbefore : ∀ j < (v.index.take v.active).findIdx p, p (v.slot j) = false := by
    intro j hj
    have hnot := List.not_of_lt_findIdx hj
    rwa [slot_eq_getElem hactive] at hnot
  rcases Nat.lt_or_ge ((v.index.take v.active).findIdx p) v.active with hlt | hge
  · have hlt' : (v.index.take v.active).findIdx p < (v.index.take v.active).length := by omega
    have hget := List.findIdx_getElem (w := hlt')
    rw [slot_eq_getElem hactive] at hget
    exact .inl ⟨hlt, hget, hbefore⟩
  · have heq : (v.index.take v.active).findIdx p = v.active := by
      have hle : (v.index.take v.active).findIdx p ≤ (v.index.take v.active).length := List.findIdx_le_length
      omega
    rw [heq] at hbefore ⊢
    exact .inr ⟨rfl, hbefore⟩

theorem First.unique {p : Option α → Bool} {i j : ℕ} (hi : First v p i) (hj : First v p j) : i = j := by
  rcases Nat.lt_trichotomy i j with hlt | heq | hlt
  · exact absurd hi.2.1 (by rw [hj.2.2 i hlt]; exact Bool.false_ne_true)
  · exact heq
  · exact absurd hj.2.1 (by rw [hi.2.2 j hlt]; exact Bool.false_ne_true)

theorem First.getElem {p : Option α → Bool} {i : ℕ} (hi : First v p i) (hactive : v.active ≤ v.index.length) :
    ∃ hlt : i < v.index.length, v.index[i] = v.slot i := by
  have hlt := Nat.lt_of_lt_of_le hi.1 hactive
  refine ⟨hlt, ?_⟩
  rw [slot, List.getElem?_eq_getElem hlt, Option.join_some]

theorem slot_set_none (i j active count : ℕ) :
    slot ⟨v.index.set i none, active, count⟩ j = if i = j then none else v.slot j := by
  unfold slot
  rw [List.getElem?_set]
  split_ifs <;> rfl

section Value
variable [DecidableEq α]

theorem unsetValue_first (hactive : v.active ≤ v.index.length) {val : Option α} {i : ℕ}
    (hi : First v (fun x => decide (x = val)) i) :
    unsetValue val v =
      ⟨v.index.set i none, if i + 1 = v.active then trim (v.index.set i none) i v.active else v.active, dec v.count⟩ := by
  have heq : (v.index.take v.active).findIdx (fun x => decide (x = val)) = i := by
    rcases first_findIdx hactive fun x => decide (x = val) with hfirst | ⟨-, hnone⟩
    · exact hfirst.unique hi
    · exact absurd hi.2.1 (Bool.eq_false_iff.mp (hnone i hi.1))
  unfold unsetValue
  rw [heq]
  dsimp only
  rw [if_pos hi.1]
  split_ifs <;> rfl

theorem unsetValue_absent (hactive : v.active ≤ v.index.length) {val : Option α}
    (hnone : ∀ i < v.active, v.slot i ≠ val) : unsetValue val v = v := by
  have heq : (v.index.take v.active).findIdx (fun x => decide (x = val)) = v.active := by
    rcases first_findIdx hactive fun x => decide (x = val) with hfirst | ⟨heq, -⟩
    · exact absurd (of_decide_eq_true hfirst.2.1) (hnone _ hfirst.1)
    · exact heq
  unfold unsetValue
  rw [heq]
  dsimp only
  rw [if_neg (Nat.lt_irrefl _), if_neg (Nat.succ_ne_self _)]

theorem cleared_first (hactive : v.active ≤ v.index.length) {val : Option α} {i : ℕ}
    (hi : First v (fun x => decide (x = val)) i) : Cleared v val (unsetValue val v) := by
  rw [unsetValue_first hactive hi]
  constructor
  · exact List.length_set
  · intro j hj
    rw [slot_set_none, if_pos (hi.unique hj)]
  · intro j hj
    rw [slot_set_none, if_neg]
    rintro rfl
    exact hj hi

theorem cleared_absent {val : Option α} (hnone : ∀ i < v.active, v.slot i ≠ val) : Cleared v val v := by
  constructor
  · rfl
  · intro i hi
    exact absurd (of_decide_eq_true hi.2.1) (hnone i hi.1)
  · exact fun _ _ => rfl

theorem consistent_first (h : Consistent v) {x : α} {i : ℕ} (hi : First v (fun y => decide (y = some x)) i) :
    Consistent (unsetValue (some x) v) := by
  have hslot : v.slot i = some x := of_decide_eq_true hi.2.1
  obtain ⟨hlt, hget⟩ := hi.getElem h.active
  rw [unsetValue_first h.active hi]
  obtain ⟨htrim, hempty⟩ := trim_spec (v.index.set i none) i
  constructor
  · change (if _ then _ else _) ≤ (v.index.set i none).length
    have hact := h.active
    rw [List.length_set]
    split_ifs with hlast
    · rw [← hlast]
      omega
    · exact hact
  · intro j hj
    rw [slot_set_none]
    split_ifs with hij
    · rfl
    · dsimp only at hj
      split_ifs at hj with hlast
      · rw [← hlast] at hj
        rcases Nat.lt_or_ge j i with hji | hji
        · -- the slots that the `do` loop has passed are empty
          have hnone := hempty j hji hj
          rwa [List.getElem?_set_ne hij] at hnone
        · exact h.above j (by omega)
      · exact h.above j hj
  · have hset := List.countP_set (p := Option.isSome) (l := v.index) (i := i) (a := none) hlt
    have hpos : 0 < v.index.countP Option.isSome := by
      refine List.countP_pos_iff.mpr ⟨v.index[i], List.getElem_mem hlt, ?_⟩
      rw [hget, hslot]
      rfl
    rw [hget, hslot] at hset
    change dec v.count = _
    rw [hset, h.count]
    obtain ⟨c, hc⟩ := Nat.exists_eq_succ_of_ne_zero (Nat.ne_of_gt hpos)
    rw [hc]
    rfl

theorem not_consistent_hole (h : Consistent v) {i : ℕ} (hi : First v (fun y => decide (y = none)) i) :
    ¬Consistent (unsetValue none v) := by
  -- when the slot that matches is empty already, the count is wrong afterwards
  obtain ⟨hlt, hget⟩ := hi.getElem h.active
  have hset : v.index.set i none = v.index := by
    conv_rhs => rw [← List.set_getElem_self hlt, hget, of_decide_eq_true hi.2.1]
  intro hcons
  have hcount := hcons.count
  rw [unsetValue_first h.active hi, hset] at hcount
  exact dec_ne v.count (hcount.trans h.count.symm)

/-- `count` stays right, and one slot at most is cleared, if and only if no empty slot in use was looked for. -/
theorem unset_value_keeps_counters (h : Consistent v) (val : Option α) :
    (Consistent (unsetValue val v) ∧ Cleared v val (unsetValue val v)) ↔
      (val ≠ none ∨ ∀ i < v.active, v.slot i ≠ none) := by
  rcases first_findIdx h.active fun x => decide (x = val) with hfirst | ⟨-, hnone⟩
  · cases val with
    | none =>
      refine iff_of_false (fun hcons => not_consistent_hole h hfirst hcons.1) ?_
      rintro (hne | hall)
      · exact hne rfl
      · exact hall _ hfirst.1 (of_decide_eq_true hfirst.2.1)
    | some x => exact iff_of_true ⟨consistent_first h hfirst, cleared_first h.active hfirst⟩ (.inl (Option.some_ne_none x))
  · have habsent : ∀ i < v.active, v.slot i ≠ val := fun i hi => of_decide_eq_false (hnone i hi)
    rw [unsetValue_absent h.active habsent]
    refine iff_of_true ⟨h, cleared_absent habsent⟩ ?_
    cases val with
    | none => exact .inr habsent
    | some x => exact .inl (Option.some_ne_none x)

theorem unset_value_keeps_counters_sample :
    (Consistent (unsetValue (some 2) ⟨[some 1, none, some 2, none], 3, 2⟩) ∧
        Cleared ⟨[some 1, none, some 2, none], 3, 2⟩ (some 2) (unsetValue (some 2) ⟨[some 1, none, some 2, none], 3, 2⟩)) ↔
      (some 2 ≠ none ∨ ∀ i < 3, slot ⟨[some 1, none, some 2, none], 3, 2⟩ i ≠ none) :=
  unset_value_keeps_counters (Rep.consistent (l := [some 1, none, some 2]) ⟨1, rfl, by decide⟩) (some 2)

/-- A hole that is looked for counts as a value that goes. -/
theorem unset_value_loses_count :
    Consistent (⟨[some 1, none, some 2, none], 3, 2⟩ : SparseVector ℕ) ∧
      ¬Consistent (unsetValue none (⟨[some 1, none, some 2, none], 3, 2⟩ : SparseVector ℕ)) := by
  refine ⟨Rep.consistent (l := [some 1, none, some 2]) ⟨1, rfl, by decide⟩, ?_⟩
  intro hcons
  exact absurd hcons.count (by decide)

end Value

/-! ## Finding a value -/

/-- What `vector_find` is to return. -/
def IsFirst (v : SparseVector α) (p : Option α → Bool) (r : ℤ) : Prop :=
  (∃ i, First v p i ∧ r = i) ∨ (∀ i < v.active, p (v.slot i) = false) ∧ r = -1

theorem findLoop_eq (p : Option α → Bool) {i : ℕ} (hi : i < 2 ^ 31) (l : List (Option α)) :
    findLoop p i l = if i + l.findIdx p < 2 ^ 31 then some (i + l.findIdx p) else none := by
  induction l generalizing i with
  | nil => exact (if_pos hi).symm
  | cons var vars ih =>
    rw [findLoop, List.findIdx_cons]
    cases p var with
    | true => exact (if_pos hi).symm
    | false =>
      rw [cond_false, if_neg Bool.false_ne_true, Nat.add_comm (vars.findIdx p) 1, ← Nat.add_assoc]
      split_ifs with hnext hlt hlt
      · rw [ih hnext, if_pos hlt]
      · rw [ih hnext, if_neg hlt]
      · omega
      · rfl

theorem findIdx_lt_iff (hactive : v.active ≤ v.index.length) (p : Option α → Bool) (bound : ℕ) :
    (v.index.take v.active).findIdx p < bound ↔ v.active < bound ∨ ∃ i < v.active, i < bound ∧ p (v.slot i) = true := by
  rcases first_findIdx hactive p with ⟨hlt, hp, hbefore⟩ | ⟨heq, hnone⟩
  · constructor
    · exact fun hk => .inr ⟨_, hlt, hk, hp⟩
    · rintro (hk | ⟨i, -, hk, hpi⟩)
      · exact Nat.lt_trans hlt hk
      · -- a match at `i` is no earlier than the first
        refine Nat.lt_of_le_of_lt (Nat.le_of_not_lt fun hi => ?_) hk
        exact absurd hpi (Bool.eq_false_iff.mp (hbefore i hi))
  · rw [heq]
    constructor
    · exact .inl
    · rintro (hk | ⟨i, hi, -, hpi⟩)
      · exact hk
      · exact absurd hpi (Bool.eq_false_iff.mp (hnone i hi))

section Find
variable [DecidableEq α] (stack : Int32) (val : Option α) (fn : Option (Option α → Option α → ℤ))

theorem find_pos (hpos : 0 < v.active) :
    find stack val fn v =
      if (v.index.take v.active).findIdx (matchesValue val fn) < 2 ^ 31 then
        some (if (v.index.take v.active).findIdx (matchesValue val fn) = v.active then -1
          else ((v.index.take v.active).findIdx (matchesValue val fn) : ℤ))
      else none := by
  unfold find
  rw [if_pos hpos, findLoop_eq _ (by decide), Nat.zero_add]
  generalize (v.index.take v.active).findIdx (matchesValue val fn) = k
  split_ifs with hk heq
  · change some (if (k : ℤ) % 2 ^ 32 = v.active then -1 else (k : ℤ)) = _
    rw [if_pos (by omega)]
  · change some (if (k : ℤ) % 2 ^ 32 = v.active then -1 else (k : ℤ)) = _
    rw [if_neg (by omega)]
  · rfl

theorem find_empty (hzero : v.active = 0) :
    find stack val fn v = some (if stack.toInt % 2 ^ 32 = 0 then -1 else stack.toInt) := by
  unfold find
  rw [hzero, if_neg (Nat.lt_irrefl 0)]
  rfl

/-- The answer is right whatever the stack holds if and only if there are slots in use and the index does not overflow. -/
theorem find_returns_first (hactive : v.active ≤ v.index.length) :
    (∀ stack, ∃ r, find stack val fn v = some r ∧ IsFirst v (matchesValue val fn) r) ↔
      0 < v.active ∧ (v.active < 2 ^ 31 ∨ ∃ i < v.active, i < 2 ^ 31 ∧ matchesValue val fn (v.slot i) = true) := by
  rcases Nat.eq_zero_or_pos v.active with hzero | hpos
  · refine iff_of_false (fun hall => ?_) (fun h => absurd h.1 (by omega))
    obtain ⟨r, hr, hfirst⟩ := hall 7
    rw [find_empty _ _ _ hzero, Option.some_inj] at hr
    have hseven : r = 7 := hr.symm
    rcases hfirst with ⟨i, hi, -⟩ | ⟨-, hneg⟩
    · exact absurd hi.1 (by omega)
    · omega
  · rw [← findIdx_lt_iff hactive]
    constructor
    · intro hall
      obtain ⟨r, hr, -⟩ := hall 0
      rw [find_pos _ _ _ hpos] at hr
      refine ⟨hpos, Classical.byContradiction fun hk => ?_⟩
      rw [if_neg hk] at hr
      cases hr
    · rintro ⟨-, hk⟩ stack
      rw [find_pos _ _ _ hpos, if_pos hk]
      refine ⟨_, rfl, ?_⟩
      rcases first_findIdx hactive (matchesValue val fn) with hfirst | ⟨heq, hnone⟩
      · exact .inl ⟨_, hfirst, if_neg (Nat.ne_of_lt hfirst.1)⟩
      · exact .inr ⟨hnone, if_pos heq⟩

end Find

theorem find_returns_first_sample :
    (∀ stack, ∃ r, find stack (some 2) none ⟨[some 1, none, some 2, some 2], 4, 3⟩ = some r ∧
        IsFirst ⟨[some 1, none, some 2, some 2], 4, 3⟩ (matchesValue (some 2) none) r) ↔
      0 < 4 ∧ (4 < 2 ^ 31 ∨ ∃ i < 4, i < 2 ^ 31 ∧
        matchesValue (some 2) none (slot ⟨[some 1, none, some 2, some 2], 4, 3⟩ i) = true) :=
  find_returns_first (v := ⟨[some 1, none, some 2, some 2], 4, 3⟩) (some 2) none (by decide)

/-- In an empty vector the answer is what the stack held. -/
theorem find_empty_garbage :
    find 7 (some 2) none (init 8 : SparseVector ℕ) = some 7 ∧
      ¬IsFirst (init 8 : SparseVector ℕ) (matchesValue (some 2) none) 7 := by
  refine ⟨rfl, ?_⟩
  rintro (⟨i, hi, -⟩ | ⟨-, hneg⟩)
  · exact absurd hi.1 (Nat.not_lt_zero i)
  · exact absurd hneg (by decide)

end Yjc.SparseVector
