import Yjc.Lib.Mem
import Mathlib.Data.List.Rotate

/-! Blocks of memory as rings: `m.rotate i` is the block read from offset `i` on and from its start again. -/

namespace Yjc.Cyclic
open Mem
variable {α : Type*} {m m' xs ys : List α} {i n r : ℕ}

theorem rotate_sub_length (h : m.length ≤ i) : m.rotate (i - m.length) = m.rotate i := by
  rw [← List.rotate_mod, ← List.rotate_mod m i, Nat.mod_eq_sub_mod h]

theorem take_rotate (h : i + n ≤ m.length) : (m.rotate i).take n = slice m i (i + n) := by
  rw [List.rotate_eq_drop_append_take (by omega), List.take_append_of_le_length (by rw [List.length_drop]; omega),
    List.take_drop, slice]

theorem take_rotate_wrap (hi : i ≤ m.length) (hn : m.length - i ≤ n) (hle : n ≤ m.length) :
    (m.rotate i).take n = slice m i m.length ++ slice m 0 (n - (m.length - i)) := by
  rw [List.rotate_eq_drop_append_take hi, List.take_append, List.length_drop,
    List.take_of_length_le (by rw [List.length_drop]; exact hn), List.take_take, Nat.min_eq_left (by omega), slice,
    List.take_length, slice_zero]

theorem rotate_store (h : i + xs.length ≤ m.length) :
    (store m i xs).rotate i = xs ++ (m.rotate i).drop xs.length := by
  have hi : i ≤ m.length := by omega
  have hlen : (m.take i).length = i := by rw [List.length_take, Nat.min_eq_left hi]
  have hdrop : (store m i xs).drop i = xs ++ m.drop (i + xs.length) := by
    rw [store, List.append_assoc, List.drop_left' hlen]
  have htake : (store m i xs).take i = m.take i := by
    rw [store, List.append_assoc, List.take_left' hlen]
  rw [List.rotate_eq_drop_append_take (by rw [length_store h]; exact hi), List.rotate_eq_drop_append_take hi, hdrop, htake,
    List.drop_append_of_le_length (by rw [List.length_drop]; omega), List.drop_drop, List.append_assoc]

theorem rotate_store_wrap (hi : i ≤ m.length) (hxs : xs.length = m.length - i) (hys : ys.length ≤ i) :
    (store (store m i xs) 0 ys).rotate i = xs ++ ys ++ (m.rotate i).drop (xs.length + ys.length) := by
  have htake : (m.take i).length = i := by rw [List.length_take, Nat.min_eq_left hi]
  have hfirst : store m i xs = m.take i ++ xs := by
    rw [store, List.drop_eq_nil_of_le (by omega), List.append_nil]
  have hboth : store (store m i xs) 0 ys = (ys ++ (m.take i).drop ys.length) ++ xs := by
    rw [hfirst, store, List.take_zero, List.nil_append, Nat.zero_add, List.drop_append_of_le_length (by omega),
      List.append_assoc]
  have hlen : (ys ++ (m.take i).drop ys.length).length = i := by
    rw [List.length_append, List.length_drop]
    omega
  have hrest : (m.rotate i).drop (xs.length + ys.length) = (m.take i).drop ys.length := by
    rw [List.rotate_eq_drop_append_take hi, ← List.drop_drop, List.drop_left' (by rw [List.length_drop, hxs])]
  rw [hboth, hrest]
  nth_rewrite 2 [← hlen]
  rw [List.rotate_append_length_eq, List.append_assoc]

theorem take_rotate_of_written (hlen : m'.length = m.length) (hr : r + xs.length ≤ m.length)
    (h : m'.rotate (i + r) = xs ++ (m.rotate (i + r)).drop xs.length) :
    (m'.rotate i).take (r + xs.length) = (m.rotate i).take r ++ xs := by
  have hl : (m.rotate i).length = m.length := List.length_rotate ..
  have hl' : (m'.rotate i).length = m.length := (List.length_rotate ..).trans hlen
  have hsplit : (m'.rotate i).rotate r = (m'.rotate i).drop r ++ (m'.rotate i).take r :=
    List.rotate_eq_drop_append_take (by omega)
  have hsplit₀ : (m.rotate i).rotate r = (m.rotate i).drop r ++ (m.rotate i).take r :=
    List.rotate_eq_drop_append_take (by omega)
  rw [← List.rotate_rotate, ← List.rotate_rotate, hsplit, hsplit₀,
    List.drop_append_of_le_length (by rw [List.length_drop]; omega), List.drop_drop, ← List.append_assoc] at h
  obtain ⟨hdrop, htake⟩ := List.append_inj h (by simp only [List.length_append, List.length_drop]; omega)
  rw [List.take_add, htake, hdrop, List.take_left]

end Yjc.Cyclic
