import Yjc.Lib.CInt
import Yjc.Lib.Mem
import Yjc.Lib.Run

/-! The array queue that `QUEUE_DECL` of `container/queue.h` declares, and the sequence it stands for.
A push that finds the cells full doubles them; one that finds no cell behind the last element moves
the elements to the front. The new number of cells is passed on as an `int`. -/

namespace Yjc
open Mem
variable {α : Type*}

/-- `ptr` holds `maxsize` cells, the elements are those at `[offset, offset + size)`. Cells that were
never written are zero-filled, here `default`. -/
structure Queue (α : Type*) where
  ptr : List α
  size : ℕ
  maxsize : ℕ
  offset : ℕ
  ptr_length : ptr.length = maxsize
  bound : offset + size ≤ maxsize
deriving DecidableEq

namespace Queue

def queueInitSize : ℕ := 16

def empty (q : Queue α) : Bool := q.size = 0

def front (q : Queue α) : Option α := if q.size = 0 then none else q.ptr[q.offset]?

def back (q : Queue α) : Option α := if q.size = 0 then none else q.ptr[q.offset + q.size - 1]?

def init [Inhabited α] (maxsize : ℕ) : Queue α where
  ptr := List.replicate maxsize default
  size := 0
  maxsize := maxsize
  offset := 0
  ptr_length := List.length_replicate
  bound := Nat.zero_le _

/-- The cells stay, zero-filled. -/
def clear [Inhabited α] (q : Queue α) : Queue α where
  ptr := List.replicate q.maxsize default
  size := 0
  maxsize := q.maxsize
  offset := 0
  ptr_length := List.length_replicate
  bound := Nat.zero_le _

def cleanup (_ : Queue α) : Queue α where
  ptr := []
  size := 0
  maxsize := 0
  offset := 0
  ptr_length := rfl
  bound := Nat.le_refl 0

/-- `ev_zrealloc` to as many cells, at least those in use. -/
def withCells [Inhabited α] (q : Queue α) (maxsize : ℕ) (h : q.offset + q.size ≤ maxsize) : Queue α where
  ptr := zrealloc q.ptr maxsize
  size := q.size
  maxsize := maxsize
  offset := q.offset
  ptr_length := length_zrealloc _ _
  bound := h

/-- `none` where `ev_zrealloc` exits: a size below zero is, as a `size_t`, more than can be had. No caller asks for fewer cells than
are in use. -/
def resize [Inhabited α] (q : Queue α) (maxsize : ℤ) : Option (Queue α) :=
  let maxsize : ℤ := if maxsize = 0 then queueInitSize else maxsize
  if maxsize < 0 then none
  else if h : q.offset + q.size ≤ maxsize.toNat then some (q.withCells maxsize.toNat h) else none

/-- The product is a `size_t`, the parameter of `qtype_resize` an `int`. -/
def doubleResize [Inhabited α] (q : Queue α) : Option (Queue α) := q.resize (cInt (q.maxsize * 2))

/-- `memmove` of the elements to the front of the cells. -/
def compact (q : Queue α) : Queue α where
  ptr := store q.ptr 0 (slice q.ptr q.offset (q.offset + q.size))
  size := q.size
  maxsize := q.maxsize
  offset := 0
  ptr_length := by
    have h := q.bound
    have hl := q.ptr_length
    rw [length_store (by rw [length_slice (by omega)]; omega), hl]
  bound := by
    have h := q.bound
    omega

def put (q : Queue α) (elem : α) (h : q.offset + q.size < q.maxsize) : Queue α where
  ptr := q.ptr.set (q.offset + q.size) elem
  size := q.size + 1
  maxsize := q.maxsize
  offset := q.offset
  ptr_length := by rw [List.length_set, q.ptr_length]
  bound := h

def room [Inhabited α] (q : Queue α) : Option (Queue α) :=
  if q.size = q.maxsize then q.doubleResize else if q.offset + q.size = q.maxsize then some q.compact else some q

/-- `none` where the process ends, or where the store would be outside the cells. -/
def pushBack [Inhabited α] (q : Queue α) (elem : α) : Option (Queue α) :=
  q.room.bind fun r => if h : r.offset + r.size < r.maxsize then some (r.put elem h) else none

/-- `none` is the failed `assert(p->size > 0)`. -/
def popFront (q : Queue α) : Option (Queue α) :=
  if h : 0 < q.size then
    some
      { ptr := q.ptr
        size := q.size - 1
        maxsize := q.maxsize
        offset := if q.offset + 1 = q.maxsize then 0 else q.offset + 1
        ptr_length := q.ptr_length
        bound := by
          have hb := q.bound
          split <;> omega }
  else none

def popBack (q : Queue α) : Option (Queue α) :=
  if 0 < q.size then
    some
      { ptr := q.ptr
        size := q.size - 1
        maxsize := q.maxsize
        offset := q.offset
        ptr_length := q.ptr_length
        bound := by
          have hb := q.bound
          omega }
  else none

/-- A write through the pointer `qtype_front` returns. -/
def modifyFront (q : Queue α) (f : α → α) : Queue α where
  ptr := q.ptr.modify q.offset f
  size := q.size
  maxsize := q.maxsize
  offset := q.offset
  ptr_length := by rw [List.length_modify, q.ptr_length]
  bound := q.bound

/-- The sequence the queue stands for. -/
def toList (q : Queue α) : List α := slice q.ptr q.offset (q.offset + q.size)

@[simp] theorem length_toList (q : Queue α) : q.toList.length = q.size := by
  have hb := q.bound
  have hl := q.ptr_length
  rw [toList, length_slice (by omega), Nat.add_sub_cancel_left]

theorem empty_iff (q : Queue α) : q.empty = true ↔ q.toList = [] := by
  rw [← List.length_eq_zero_iff, length_toList, empty, decide_eq_true_eq]

@[simp] theorem toList_init [Inhabited α] (n : ℕ) : (init n : Queue α).toList = [] := slice_self _ _

@[simp] theorem toList_cleanup (q : Queue α) : q.cleanup.toList = [] := slice_self _ _

theorem front_eq (q : Queue α) : q.front = q.toList.head? := by
  rw [List.head?_eq_getElem?]
  by_cases h : q.size = 0
  · have hn : q.toList = [] := List.length_eq_zero_iff.mp (by rw [length_toList, h])
    rw [front, if_pos h, hn, List.getElem?_nil]
  · rw [front, if_neg h, toList, slice_getElem? (by omega), Nat.add_zero]

theorem toList_withCells [Inhabited α] (q : Queue α) {n : ℕ} (h : q.offset + q.size ≤ n) : (q.withCells n h).toList = q.toList := by
  have hb := q.bound
  have hl := q.ptr_length
  simp only [toList, withCells]
  rw [slice_zrealloc (by omega) (by omega)]

theorem toList_compact (q : Queue α) : q.compact.toList = q.toList := by
  have hb := q.bound
  have hl := q.ptr_length
  have hs : (slice q.ptr q.offset (q.offset + q.size)).length = q.size := by
    rw [length_slice (by omega)]
    omega
  have h := slice_store_zero q.ptr (slice q.ptr q.offset (q.offset + q.size))
  rw [hs] at h
  simpa only [toList, compact, Nat.zero_add] using h

theorem toList_put (q : Queue α) (elem : α) (h : q.offset + q.size < q.maxsize) :
    (q.put elem h).toList = q.toList ++ [elem] := by
  have hl := q.ptr_length
  have hset : q.ptr.set (q.offset + q.size) elem = store q.ptr (q.offset + q.size) [elem] := by
    rw [List.set_eq_take_append_cons_drop, if_pos (by omega), store, List.append_assoc]
    rfl
  have hs := slice_store_append q.ptr [elem] (Nat.le_add_right q.offset q.size) (by omega)
  simp only [toList, put, hset]
  exact hs

/-! ## Pushes that get their cells -/

/-- Twice the cells, and some for a queue without any. -/
def doubleSize (maxsize : ℕ) : ℕ := if maxsize = 0 then queueInitSize else maxsize * 2

theorem lt_doubleSize (n : ℕ) : n < doubleSize n := by
  unfold doubleSize queueInitSize
  split <;> omega

def doubled [Inhabited α] (q : Queue α) : Queue α :=
  q.withCells (doubleSize q.maxsize) (Nat.le_trans q.bound (Nat.le_of_lt (lt_doubleSize _)))

def opened [Inhabited α] (q : Queue α) : Queue α :=
  if q.size = q.maxsize then q.doubled else if q.offset + q.size = q.maxsize then q.compact else q

theorem lt_opened [Inhabited α] (q : Queue α) : q.opened.offset + q.opened.size < q.opened.maxsize := by
  have hb := q.bound
  unfold opened
  split_ifs with hfull hend
  · have hd := lt_doubleSize q.maxsize
    simp only [doubled, withCells]
    omega
  · simp only [compact]
    omega
  · omega

/-- The queue after `pushBack`, where that returns. -/
def pushed [Inhabited α] (q : Queue α) (elem : α) : Queue α := q.opened.put elem q.lt_opened

theorem toList_opened [Inhabited α] (q : Queue α) : q.opened.toList = q.toList := by
  unfold opened
  split_ifs
  · exact q.toList_withCells _
  · exact q.toList_compact
  · rfl

@[simp] theorem toList_pushed [Inhabited α] (q : Queue α) (elem : α) : (q.pushed elem).toList = q.toList ++ [elem] := by
  rw [pushed, toList_put, toList_opened]

theorem doubleResize_eq [Inhabited α] {q : Queue α} (h : q.maxsize < 2 ^ 31) :
    q.doubleResize = if q.maxsize < 2 ^ 30 then some q.doubled else none := by
  have hb := q.bound
  have hd := lt_doubleSize q.maxsize
  rw [doubleResize, resize]
  by_cases hlt : q.maxsize < 2 ^ 30
  · have hint : cInt (q.maxsize * 2) = (q.maxsize * 2 : ℕ) := cInt_of_eq (Int.natCast_mul _ _).symm (by omega)
    have hsize : (if cInt (q.maxsize * 2) = 0 then (queueInitSize : ℤ) else cInt (q.maxsize * 2)) = doubleSize q.maxsize := by
      rw [hint, doubleSize]
      split_ifs <;> omega
    simp only [hsize, Int.toNat_natCast]
    rw [if_neg (by omega), dif_pos (by omega), if_pos hlt]
    rfl
  · -- from so many cells on the product is no `int`
    have hint : cInt (q.maxsize * 2) = (q.maxsize * 2 : ℕ) - 2 ^ 32 := by
      rw [← cInt_of_ge (by omega) (by omega), Int.natCast_mul]
      rfl
    have hneg : cInt (q.maxsize * 2) < 0 := by omega
    rw [if_neg hlt, if_neg (Int.ne_of_lt hneg), if_pos hneg]

theorem room_eq [Inhabited α] {q : Queue α} (h : q.maxsize < 2 ^ 31) :
    q.room = if q.size = q.maxsize → q.maxsize < 2 ^ 30 then some q.opened else none := by
  unfold room opened
  by_cases hfull : q.size = q.maxsize
  · have hfits : q.maxsize < 2 ^ 30 ↔ (q.size = q.maxsize → q.maxsize < 2 ^ 30) := ⟨fun hlt _ => hlt, fun hlt => hlt hfull⟩
    rw [if_pos hfull, if_pos hfull, doubleResize_eq h]
    exact if_congr hfits rfl rfl
  · rw [if_neg hfull, if_neg hfull, if_pos fun heq => absurd heq hfull]
    split_ifs
    · rfl
    · rfl

theorem pushBack_eq [Inhabited α] {q : Queue α} (h : q.maxsize < 2 ^ 31) (elem : α) :
    q.pushBack elem = if q.size = q.maxsize → q.maxsize < 2 ^ 30 then some (q.pushed elem) else none := by
  rw [pushBack, room_eq h]
  split_ifs
  · exact dif_pos q.lt_opened
  · rfl

/-! ## The ends -/

theorem popFront_none {q : Queue α} (h : q.popFront = none) : q.toList = [] := by
  unfold popFront at h
  split at h
  · cases h
  · exact List.length_eq_zero_iff.mp (by rw [length_toList]; omega)

theorem popFront_eq_some {q : Queue α} (h : q.toList ≠ []) :
    ∃ q', q.popFront = some q' ∧ q'.toList = q.toList.tail := by
  have hb := q.bound
  have hl := q.ptr_length
  have hpos : 0 < q.size := by
    rw [← length_toList]
    exact List.length_pos_iff.mpr h
  refine ⟨_, dif_pos hpos, ?_⟩
  simp only [toList, ← List.drop_one, drop_slice]
  split
  · rw [slice_eq_nil (by omega), slice_eq_nil (by omega)]
  · rw [show q.offset + 1 + (q.size - 1) = q.offset + q.size by omega]

theorem popFront_cons {q q' : Queue α} (h : q.popFront = some q') : ∃ b, q.toList = b :: q'.toList := by
  have hne : q.toList ≠ [] := by
    intro hnil
    have h0 : q.size = 0 := by rw [← length_toList, hnil, List.length_nil]
    rw [popFront, dif_neg (by omega)] at h
    cases h
  obtain ⟨q'', h'', htail⟩ := popFront_eq_some hne
  rw [h] at h''
  cases h''
  obtain ⟨b, l, hl⟩ := List.exists_cons_of_ne_nil hne
  exact ⟨b, by rw [htail, hl, List.tail_cons]⟩

theorem toList_modifyFront (q : Queue α) (f : α → α) :
    (q.modifyFront f).toList = q.toList.modify 0 f := by
  have hb := q.bound
  have hl := q.ptr_length
  apply List.ext_getElem?
  intro i
  simp only [toList, modifyFront, List.getElem?_modify]
  by_cases hi : i < q.size
  · rw [slice_getElem? (by omega), slice_getElem? (by omega), List.getElem?_modify]
    simp only [show q.offset = q.offset + i ↔ 0 = i by omega]
  · rw [List.getElem?_eq_none (by rw [length_slice (by rw [List.length_modify]; omega)]; omega),
      List.getElem?_eq_none (by rw [length_slice (by omega)]; omega)]
    rfl

/-! ## Sequences of operations -/

inductive Op (α : Type*)
  | pushBack (elem : α)
  | popFront
  | popBack
  | clear

def step [Inhabited α] (q : Queue α) : Op α → Option (Queue α)
  | .pushBack elem => q.pushBack elem
  | .popFront => q.popFront
  | .popBack => q.popBack
  | .clear => some q.clear

def sequenceStep (l : List α) : Op α → Option (List α)
  | .pushBack elem => some (l ++ [elem])
  | .popFront => if l = [] then none else some l.tail
  | .popBack => if l = [] then none else some l.dropLast
  | .clear => some []

theorem back_eq (q : Queue α) : q.back = q.toList.getLast? := by
  rw [List.getLast?_eq_getElem?, length_toList]
  by_cases h : q.size = 0
  · have hn : q.toList = [] := List.length_eq_zero_iff.mp (by rw [length_toList, h])
    rw [back, if_pos h, hn, List.getElem?_nil]
  · rw [back, if_neg h, toList, slice_getElem? (by omega), Nat.add_sub_assoc (by omega)]

theorem toList_popBack (q : Queue α) : q.popBack.map toList = if q.toList = [] then none else some q.toList.dropLast := by
  have hb := q.bound
  have hl := q.ptr_length
  have hzero : q.toList = [] ↔ q.size = 0 := by rw [← List.length_eq_zero_iff, length_toList]
  unfold popBack
  split_ifs with hpos hnil hnil
  · have := hzero.mp hnil
    omega
  · refine congrArg some ?_
    rw [List.dropLast_eq_take, length_toList, toList, toList, take_slice (by omega)]
  · rfl
  · have := mt hzero.mpr hnil
    omega

theorem toList_popFront (q : Queue α) : q.popFront.map toList = if q.toList = [] then none else some q.toList.tail := by
  split_ifs with hnil
  · cases hpop : q.popFront with
    | none => rfl
    | some q' =>
      obtain ⟨b, hb⟩ := popFront_cons hpop
      rw [hnil] at hb
      cases hb
  · obtain ⟨q', hpop, htail⟩ := popFront_eq_some hnil
    rw [hpop, Option.map_some, htail]

/-- Room for the element, in no more cells than an `int` counts. -/
def Fits (q : Queue α) : Op α → Prop
  | .pushBack _ => q.size = q.maxsize → q.maxsize < 2 ^ 30
  | _ => True

instance decidableFits (q : Queue α) : ∀ op, Decidable (q.Fits op)
  | .pushBack _ => inferInstanceAs (Decidable (q.size = q.maxsize → q.maxsize < 2 ^ 30))
  | .popFront | .popBack | .clear => .isTrue trivial

theorem maxsize_pushed [Inhabited α] {q : Queue α} {elem : α} (h : q.maxsize < 2 ^ 31) (hfits : q.Fits (.pushBack elem)) :
    (q.pushed elem).maxsize < 2 ^ 31 := by
  change q.opened.maxsize < 2 ^ 31
  unfold opened
  split_ifs with hfull
  · have hlt := hfits hfull
    change doubleSize q.maxsize < 2 ^ 31
    unfold doubleSize queueInitSize
    split <;> omega
  · exact h
  · exact h

theorem step_follows [Inhabited α] {q : Queue α} (h : q.maxsize < 2 ^ 31) {op : Op α} (hfits : q.Fits op) :
    (q.step op).map toList = sequenceStep q.toList op ∧ ∀ q' ∈ q.step op, q'.maxsize < 2 ^ 31 := by
  cases op with
  | pushBack elem =>
    have hpush : q.pushBack elem = some (q.pushed elem) := by
      rw [pushBack_eq h]
      exact if_pos hfits
    rw [step, hpush]
    refine ⟨congrArg some (q.toList_pushed elem), fun q' hq => ?_⟩
    cases hq
    exact maxsize_pushed h hfits
  | popFront =>
    refine ⟨q.toList_popFront, fun q' hq => ?_⟩
    rw [step, popFront, Option.mem_def, Option.dite_none_right_eq_some] at hq
    obtain ⟨hpos, hq⟩ := hq
    cases hq
    exact h
  | popBack =>
    refine ⟨q.toList_popBack, fun q' hq => ?_⟩
    rw [step, popBack, Option.mem_def, Option.ite_none_right_eq_some] at hq
    obtain ⟨-, hq⟩ := hq
    cases hq
    exact h
  | clear =>
    refine ⟨congrArg some (slice_self _ _), fun q' hq => ?_⟩
    cases hq
    exact h

theorem step_stuck [Inhabited α] {q : Queue α} (h : q.maxsize < 2 ^ 31) {op : Op α} (hfits : ¬q.Fits op) :
    q.step op = none ∧ sequenceStep q.toList op ≠ none := by
  cases op with
  | pushBack elem =>
    refine ⟨?_, Option.some_ne_none _⟩
    rw [step, pushBack_eq h]
    exact if_neg hfits
  | _ => exact absurd trivial hfits

/-- The queue holds the sequence at `[offset, offset + size)`, inside its cells, and a push finds a cell behind it. -/
structure Holds [Inhabited α] (q : Queue α) (l : List α) : Prop where
  cells : q.ptr.length = q.maxsize
  bound : q.offset + q.size ≤ q.maxsize
  elems : slice q.ptr q.offset (q.offset + q.size) = l
  front : q.front = l.head?
  back : q.back = l.getLast?
  store : ∀ r ∈ q.room, r.offset + r.size < r.maxsize

theorem holds_toList [Inhabited α] {q : Queue α} (h : q.maxsize < 2 ^ 31) : q.Holds q.toList where
  cells := q.ptr_length
  bound := q.bound
  elems := rfl
  front := q.front_eq
  back := q.back_eq
  store r hr := by
    rw [room_eq h, Option.mem_def, Option.ite_none_right_eq_some] at hr
    obtain ⟨-, hr⟩ := hr
    cases hr
    exact q.lt_opened

/-- The queue follows the sequence through every run that pops no empty sequence, exactly when no push finds 2^30 cells or more, all
of them taken. -/
theorem queue_follows_iff_fits [Inhabited α] {maxsize : ℕ} (hmax : maxsize < 2 ^ 31) (ops : List (Op α)) :
    (∀ p, p <+: ops → ∀ l ∈ Run.exec sequenceStep [] p, ∃ q, Run.exec step (init maxsize) p = some q ∧ q.Holds l) ↔
      Run.Along step Fits (init maxsize) ops := by
  have hfollows := @Run.along_iff_follows (Queue α) (Op α) (List α) step sequenceStep Fits Holds toList (fun q => q.maxsize < 2 ^ 31)
    (fun q h => holds_toList h) (fun q op h hfits => step_follows h hfits) (fun q op h hfits => step_stuck h hfits) (init maxsize) ops hmax
  rw [toList_init] at hfollows
  exact hfollows.symm

/-- Two cells, doubled behind elements of which the first is gone. -/
theorem queue_follows_iff_fits_sample : ∃ q, Run.exec step (init 2)
    [.pushBack 1, .pushBack 2, .pushBack 3, .popFront, .pushBack 4, .pushBack (5 : ℕ)] = some q ∧ q.Holds [2, 3, 4, 5] :=
  (queue_follows_iff_fits (by decide) [.pushBack 1, .pushBack 2, .pushBack 3, .popFront, .pushBack 4, .pushBack (5 : ℕ)]).mpr
    (by decide) _ List.prefix_rfl _ rfl

theorem exec_pushes [Inhabited α] {maxsize n : ℕ} (hmax : maxsize < 2 ^ 31) (hn : n ≤ maxsize) (elem : α) :
    ∃ q, Run.exec step (init maxsize) (List.replicate n (.pushBack elem)) = some q ∧ q.size = n ∧ q.maxsize = maxsize ∧ q.offset = 0 := by
  induction n with
  | zero => exact ⟨init maxsize, rfl, rfl, rfl, rfl⟩
  | succ n ih =>
    obtain ⟨q, hq, hsize, hcells, hoffset⟩ := ih (Nat.le_of_succ_le hn)
    have hfull : q.size ≠ q.maxsize := by omega
    have hpush : q.pushBack elem = some (q.pushed elem) := by rw [pushBack_eq (by omega), if_pos fun heq => absurd heq hfull]
    have hopened : q.opened = q := by rw [opened, if_neg hfull, if_neg (by omega)]
    have hfields : (q.pushed elem).size = q.opened.size + 1 ∧ (q.pushed elem).maxsize = q.opened.maxsize ∧
        (q.pushed elem).offset = q.opened.offset := ⟨rfl, rfl, rfl⟩
    rw [hopened] at hfields
    refine ⟨q.pushed elem, ?_, ?_, ?_, ?_⟩
    · rw [List.replicate_succ', Run.exec_append_eq, hq, Option.bind_some, Run.exec, step, hpush]
      rfl
    · rw [hfields.1, hsize]
    · rw [hfields.2.1, hcells]
    · rw [hfields.2.2, hoffset]

theorem sequence_pushes (n : ℕ) (elem : α) :
    ∃ l, Run.exec sequenceStep [] (List.replicate n (.pushBack elem)) = some l := by
  induction n with
  | zero => exact ⟨[], rfl⟩
  | succ n ih =>
    obtain ⟨l, hl⟩ := ih
    exact ⟨l ++ [elem], by rw [List.replicate_succ', Run.exec_append_eq, hl, Option.bind_some]; rfl⟩

theorem full_push_exits [Inhabited α] {maxsize : ℕ} (hmin : 2 ^ 30 ≤ maxsize) (hmax : maxsize < 2 ^ 31) (elem : α) :
    ¬∀ p, p <+: List.replicate (maxsize + 1) (Op.pushBack elem) → ∀ l ∈ Run.exec sequenceStep [] p,
      ∃ q, Run.exec step (init maxsize) p = some q ∧ q.Holds l := by
  intro h
  obtain ⟨l, hl⟩ := sequence_pushes (maxsize + 1) elem
  obtain ⟨q, hq, hsize, hcells, -⟩ := exec_pushes hmax (Nat.le_refl maxsize) elem
  obtain ⟨q', hq', -⟩ := h _ List.prefix_rfl l hl
  have hfits : ¬(q.size = q.maxsize → q.maxsize < 2 ^ 30) := fun hlt => by have := hlt (by omega); omega
  rw [List.replicate_succ', Run.exec_append_eq, hq, Option.bind_some, Run.exec, step, pushBack_eq (by omega), if_neg hfits] at hq'
  cases hq'

/-- A queue of a gibibyte, of which every byte is taken. -/
theorem full_queue_exits : ¬∀ p, p <+: List.replicate (2 ^ 30 + 1) (Op.pushBack (0 : UInt8)) → ∀ l ∈ Run.exec sequenceStep [] p,
    ∃ q, Run.exec step (init (2 ^ 30)) p = some q ∧ q.Holds l :=
  full_push_exits (Nat.le_refl _) (by decide) 0

end Queue
end Yjc
