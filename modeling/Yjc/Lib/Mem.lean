import Mathlib.Data.List.Basic
import Mathlib.Tactic.Common
import Mathlib.Algebra.Group.Nat.Defs

/-! Blocks of memory as lists of cells: reading a range and overwriting one. -/

namespace Yjc.Mem
variable {α : Type*}

/-- The cells at offsets `[a, b)`. -/
def slice (m : List α) (a b : ℕ) : List α := (m.take b).drop a

/-- `m` with `xs` copied to offset `i`. Copying past the end of the block makes the list longer. -/
def store (m : List α) (i : ℕ) (xs : List α) : List α := m.take i ++ xs ++ m.drop (i + xs.length)

/-- The block after a reallocation to `n` cells: the old cells, then zero-filled ones. -/
def zrealloc [Inhabited α] (m : List α) (n : ℕ) : List α := m.take n ++ List.replicate (n - m.length) default

theorem length_zrealloc [Inhabited α] (m : List α) (n : ℕ) : (zrealloc m n).length = n := by
  simp only [zrealloc, List.length_append, List.length_take, List.length_replicate]
  omega

theorem length_slice {m : List α} {a b : ℕ} (hb : b ≤ m.length) : (slice m a b).length = b - a := by
  simp only [slice, List.length_drop, List.length_take, Nat.min_eq_left hb]

theorem length_store {m : List α} {i : ℕ} {xs : List α} (h : i + xs.length ≤ m.length) :
    (store m i xs).length = m.length := by
  simp only [store, List.length_append, List.length_take, List.length_drop]
  omega

@[simp] theorem slice_self (m : List α) (a : ℕ) : slice m a a = [] := by simp [slice]

@[simp] theorem slice_zero (m : List α) (b : ℕ) : slice m 0 b = m.take b := by simp [slice]

theorem slice_eq_nil {m : List α} {a b : ℕ} (h : b ≤ a) : slice m a b = [] := by
  simp only [slice, List.drop_eq_nil_iff, List.length_take]
  omega

theorem slice_append_slice {m : List α} {a b c : ℕ} (hab : a ≤ b) (hbc : b ≤ c) :
    slice m a b ++ slice m b c = slice m a c := by
  have hm : m.take b = (m.take c).take b := by rw [List.take_take, Nat.min_eq_left hbc]
  have hd : ((m.take c).take b).drop a ++ (m.take c).drop b = (m.take c).drop a := by
    rw [List.drop_take, show (m.take c).drop b = ((m.take c).drop a).drop (b - a) by
      rw [List.drop_drop, Nat.add_sub_cancel' hab], List.take_append_drop]
  rw [slice, slice, slice, hm, hd]

theorem take_slice {m : List α} {a b n : ℕ} (h : a + n ≤ b) : (slice m a b).take n = slice m a (a + n) := by
  simp only [slice, List.take_drop, List.take_take, Nat.min_eq_left h]

theorem drop_slice {m : List α} {a b n : ℕ} : (slice m a b).drop n = slice m (a + n) b := by
  simp only [slice, List.drop_drop]

theorem slice_getElem? {m : List α} {a b i : ℕ} (h : a + i < b) : (slice m a b)[i]? = m[a + i]? := by
  simp only [slice, List.getElem?_drop, List.getElem?_take, h, if_true]

theorem mem_slice_succ {m : List α} {a : ℕ} {x : α} : x ∈ slice m a (a + 1) ↔ m[a]? = some x := by
  have h0 : slice m a (a + 1) = m[a]?.toList := by
    rw [slice, List.take_add_one, List.drop_append, List.drop_eq_nil_of_le (List.length_take_le _ _), List.nil_append]
    cases h : m[a]? with
    | none => exact List.drop_nil
    | some y =>
      have ha := (List.getElem?_eq_some_iff.mp h).1
      rw [List.length_take, Nat.min_eq_left (Nat.le_of_lt ha), Nat.sub_self, List.drop_zero]
  rw [h0, Option.mem_toList]

theorem slice_take {m : List α} {a b n : ℕ} (h : b ≤ n) : slice (m.take n) a b = slice m a b := by
  simp only [slice, List.take_take, Nat.min_eq_left h]

theorem slice_append_left {m ys : List α} {a b : ℕ} (h : b ≤ m.length) : slice (m ++ ys) a b = slice m a b := by
  simp only [slice, List.take_append_of_le_length h]

theorem slice_append_right (m ys : List α) (a b : ℕ) : slice (m ++ ys) (m.length + a) (m.length + b) = slice ys a b := by
  rw [slice, List.take_length_add_append, List.drop_length_add_append, slice]

theorem slice_zrealloc [Inhabited α] {m : List α} {a b n : ℕ} (hn : b ≤ n) (hm : b ≤ m.length) :
    slice (zrealloc m n) a b = slice m a b := by
  rw [zrealloc, slice_append_left (by rw [List.length_take]; omega), slice_take hn]

theorem slice_store_before {m xs : List α} {a b i : ℕ} (hb : b ≤ i) (hi : i ≤ m.length) :
    slice (store m i xs) a b = slice m a b := by
  simp only [slice, store, List.append_assoc]
  rw [List.take_append_of_le_length (by rw [List.length_take]; omega), List.take_take, Nat.min_eq_left hb]

theorem slice_store_append (m xs : List α) {a i : ℕ} (ha : a ≤ i) (hi : i ≤ m.length) :
    slice (store m i xs) a (i + xs.length) = slice m a i ++ xs := by
  have hl : (m.take i ++ xs).length = i + xs.length := by
    rw [List.length_append, List.length_take, Nat.min_eq_left hi]
  simp only [slice, store]
  rw [List.take_append_of_le_length (by omega), List.take_of_length_le (by omega),
    List.drop_append_of_le_length (by rw [List.length_take]; omega)]

theorem slice_store_zero (m xs : List α) : slice (store m 0 xs) 0 xs.length = xs := by
  simpa using slice_store_append m xs (Nat.zero_le 0) (Nat.zero_le _)

theorem store_zero (m xs : List α) : store m 0 xs = xs ++ m.drop xs.length := by
  rw [store, List.take_zero, List.nil_append, Nat.zero_add]

theorem store_store_append {m : List α} (xs ys : List α) {i : ℕ} (hi : i ≤ m.length) :
    store (store m i xs) (i + xs.length) ys = store m i (xs ++ ys) := by
  have hl : (m.take i ++ xs).length = i + xs.length := by
    rw [List.length_append, List.length_take, Nat.min_eq_left hi]
  have hdrop : (store m i xs).drop (i + xs.length + ys.length) = m.drop (i + (xs.length + ys.length)) := by
    rw [← List.drop_drop, store, List.drop_left' hl, List.drop_drop, Nat.add_assoc]
  rw [store, hdrop, store, List.take_left' hl, store, List.length_append, List.append_assoc (m.take i) xs ys]

/-- `xs` written to offset `i`, or `none` where it does not fit. -/
def write (m : List α) (i : ℕ) (xs : List α) : Option (List α) := if i + xs.length ≤ m.length then some (store m i xs) else none

theorem write_eq {m xs : List α} {i : ℕ} (h : i + xs.length ≤ m.length) : write m i xs = some (store m i xs) := if_pos h

theorem exists_append {l : List α} {n : ℕ} (h : n ≤ l.length) : ∃ a b, l = a ++ b ∧ a.length = n :=
  ⟨l.take n, l.drop n, (List.take_append_drop n l).symm, by rw [List.length_take, Nat.min_eq_left h]⟩

theorem take_slice_drop (m : List α) {a b : ℕ} (h : a ≤ b) : m.take a ++ (slice m a b ++ m.drop b) = m := by
  rw [← List.append_assoc, ← slice_zero, slice_append_slice (Nat.zero_le a) h, slice_zero, List.take_append_drop]

theorem drop_over {pre old xs post : List α} {k : ℕ} (h : old.length = xs.length) (hk : pre.length + xs.length ≤ k) :
    (pre ++ (xs ++ post)).drop k = (pre ++ (old ++ post)).drop k := by
  have hrest {ys : List α} (hys : (pre ++ ys).length ≤ k) : (pre ++ (ys ++ post)).drop k = post.drop (k - (pre ++ ys).length) := by
    rw [← List.append_assoc, List.drop_append, List.drop_eq_nil_of_le hys, List.nil_append]
  have hxs : (pre ++ xs).length = (pre ++ old).length := by rw [List.length_append, List.length_append, h]
  have hle : (pre ++ xs).length ≤ k := by rwa [List.length_append]
  rw [hrest hle, hrest (hxs ▸ hle), hxs]

theorem store_append {pre old post : List α} (xs : List α) (h : old.length = xs.length) :
    store (pre ++ (old ++ post)) pre.length xs = pre ++ (xs ++ post) := by
  rw [store, List.take_left, ← h, List.drop_append, Nat.add_sub_cancel_left, List.drop_left,
    List.drop_eq_nil_of_le (Nat.le_add_right _ _), List.nil_append, List.append_assoc]

theorem write_append {pre old post : List α} (xs : List α) {i : ℕ} (hi : i = pre.length) (h : old.length = xs.length) :
    write (pre ++ (old ++ post)) i xs = some (pre ++ (xs ++ post)) := by
  subst hi
  rw [write_eq (by simp only [List.length_append]; omega), store_append xs h]

end Yjc.Mem
