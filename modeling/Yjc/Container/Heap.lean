import Yjc.Lib.SwapRemove
import Mathlib.Tactic.SplitIfs

/-! The binary heap of `container/heap.h` by positions: its tree is complete, so that the nodes in the order of their
levels determine it. -/

namespace Yjc
open SwapRemove
variable {α : Type*}

namespace Heap

def swap (l : List α) (i j : ℕ) : List α :=
  match l[i]?, l[j]? with
  | some x, some y => (l.set i y).set j x
  | _, _ => l

/-- The loop that moves the node at `i` up while it compares before its parent. -/
def siftUp (lt : α → α → Bool) : ℕ → ℕ → List α → List α
  | 0, _, l => l
  | fuel + 1, i, l =>
    if i = 0 then l
    else
      match l[i]?, l[(i - 1) / 2]? with
      | some x, some p => if lt x p then siftUp lt fuel ((i - 1) / 2) (swap l i ((i - 1) / 2)) else l
      | _, _ => l

/-- The position of `est`: the node at `i`, unless a child does not compare after it. -/
def est (lt : α → α → Bool) (i : ℕ) (l : List α) : ℕ :=
  let pick := fun e c =>
    match l[e]?, l[c]? with
    | some x, some y => if lt x y then e else c
    | _, _ => e
  pick (pick i (2 * i + 1)) (2 * i + 2)

/-- The loop that moves the node at `i` down, and where it stops. -/
def siftDown (lt : α → α → Bool) : ℕ → ℕ → List α → ℕ × List α
  | 0, i, l => (i, l)
  | fuel + 1, i, l => if est lt i l = i then (i, l) else siftDown lt fuel (est lt i l) (swap l i (est lt i l))

theorem perm_swap (l : List α) (i j : ℕ) : (swap l i j).Perm l := by
  unfold swap
  split
  · rename_i x y hx hy
    obtain ⟨hi, rfl⟩ := List.getElem?_eq_some_iff.mp hx
    obtain ⟨hj, rfl⟩ := List.getElem?_eq_some_iff.mp hy
    exact List.set_set_perm hi hj
  · exact .rfl

theorem perm_siftUp (lt : α → α → Bool) (fuel i : ℕ) (l : List α) : (siftUp lt fuel i l).Perm l := by
  induction fuel generalizing i l with
  | zero => exact .rfl
  | succ fuel ih =>
    unfold siftUp
    split_ifs
    · exact .rfl
    · split
      · split_ifs
        · exact (ih _ _).trans (perm_swap ..)
        · exact .rfl
      · exact .rfl

theorem perm_siftDown (lt : α → α → Bool) (fuel i : ℕ) (l : List α) : (siftDown lt fuel i l).2.Perm l := by
  induction fuel generalizing i l with
  | zero => exact .rfl
  | succ fuel ih =>
    unfold siftDown
    split_ifs
    · exact .rfl
    · exact (ih _ _).trans (perm_swap ..)

end Heap

structure Heap (α : Type*) where
  elts : List α
  nelts : ℕ

namespace Heap

def init : Heap α := ⟨[], 0⟩

def root (h : Heap α) : Option α := h.elts.head?

def insert (lt : α → α → Bool) (x : α) (h : Heap α) : Heap α :=
  ⟨siftUp lt (h.elts.length + 1) h.elts.length (h.elts ++ [x]), h.nelts + 1⟩

/-- The last node takes the place of the one that goes, and finds its own. `none`: the node is not in the heap. -/
def remove [DecidableEq α] (lt : α → α → Bool) (x : α) (h : Heap α) : Option (Heap α) :=
  if h.nelts = 0 then some h
  else
    match h.elts.idxOf? x with
    | none => none
    | some i =>
      let l := swapRemove h.elts i
      if i < l.length then
        let r := siftDown lt l.length i l
        some ⟨siftUp lt (r.1 + 1) r.1 r.2, h.nelts - 1⟩
      else some ⟨l, h.nelts - 1⟩

theorem perm_insert (lt : α → α → Bool) (x : α) (h : Heap α) : (insert lt x h).elts.Perm (x :: h.elts) :=
  (perm_siftUp ..).trans (List.perm_append_singleton x h.elts)

theorem remove_eq_some [DecidableEq α] (lt : α → α → Bool) {x : α} {h : Heap α} (hx : x ∈ h.elts)
    (hn : h.nelts = h.elts.length) :
    ∃ h', remove lt x h = some h' ∧ (x :: h'.elts).Perm h.elts ∧ h'.nelts + 1 = h.nelts := by
  have hpos : 0 < h.elts.length := List.length_pos_of_mem hx
  unfold remove
  rw [if_neg (by omega)]
  cases hidx : h.elts.idxOf? x with
  | none => exact absurd hx (List.idxOf?_eq_none_iff.mp hidx)
  | some i =>
    obtain ⟨hi, hxi, -⟩ := List.idxOf?_eq_some_iff.mp hidx
    have hperm := perm_swapRemove (List.getElem?_eq_some_iff.mpr ⟨hi, hxi⟩)
    dsimp only
    split_ifs
    · refine ⟨_, rfl, ?_, by dsimp only; omega⟩
      exact (((perm_siftUp ..).trans (perm_siftDown ..)).cons x).trans hperm
    · exact ⟨_, rfl, hperm, by dsimp only; omega⟩

theorem mem_of_root {x : α} {h : Heap α} (hx : h.root = some x) : x ∈ h.elts := List.mem_of_mem_head? hx

end Heap

end Yjc
