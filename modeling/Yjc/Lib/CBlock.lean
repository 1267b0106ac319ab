import Yjc.Lib.Mem
import Yjc.Lib.Strtod

/-! Strings that end with `NUL`, within a block of memory. What reads or writes outside of the block has no result. -/

namespace Yjc.CLib
open Mem

/-- The string at offset `i`. -/
def stringAt (m : List UInt8) (i : ℕ) : Option (List UInt8) :=
  if 0 ∈ m.drop i then some ((m.drop i).takeWhile (· ≠ 0)) else none

/-- `strlen` of the string at offset `i`. -/
def strlenAt (m : List UInt8) (i : ℕ) : Option ℕ := (stringAt m i).map List.length

/-- `memmove` within the block; `memcpy` where the ranges do not overlap. -/
def memmove (m : List UInt8) (dst src n : ℕ) : Option (List UInt8) :=
  if src + n ≤ m.length then write m dst (slice m src (src + n)) else none

/-- `memset` with zeros. -/
def memzero (m : List UInt8) (dst n : ℕ) : Option (List UInt8) := write m dst (List.replicate n 0)

/-- `strncat`: at most `n` characters of `src` and a `NUL`, from the end of the string at the front of the block on. -/
def strncat (m src : List UInt8) (n : ℕ) : Option (List UInt8) := do write m (← strlenAt m 0) (src.take n ++ [0])

variable {pre s old post : List UInt8} {i n : ℕ}

theorem takeWhile_nonzero (h : 0 ∉ s) (post : List UInt8) : (s ++ 0 :: post).takeWhile (· ≠ 0) = s := by
  refine (span_append (fun c hc => ?_) (notFrom_cons.mpr (by simp))).1
  have hne : c ≠ 0 := ne_of_mem_of_not_mem hc h
  exact decide_eq_true hne

theorem stringAt_append (h : 0 ∉ s) (hi : i = pre.length) (post : List UInt8) : stringAt (pre ++ (s ++ 0 :: post)) i = some s := by
  subst hi
  rw [stringAt, List.drop_left, takeWhile_nonzero h, if_pos (List.mem_append_right s List.mem_cons_self)]

theorem strlenAt_append (h : 0 ∉ s) (hi : i = pre.length) (post : List UInt8) :
    strlenAt (pre ++ (s ++ 0 :: post)) i = some s.length := by
  rw [strlenAt, stringAt_append h hi, Option.map_some]

theorem stringAt_front (h : 0 ∉ s) (post : List UInt8) : stringAt (s ++ 0 :: post) 0 = some s := @stringAt_append [] s 0 h rfl post

theorem strlenAt_front (h : 0 ∉ s) (post : List UInt8) : strlenAt (s ++ 0 :: post) 0 = some s.length :=
  @strlenAt_append [] s 0 h rfl post

theorem store_behind (front m xs : List UInt8) {i : ℕ} (h : front.length ≤ i) :
    store (front ++ m) i xs = front ++ store m (i - front.length) xs := by
  have hdrop : (front ++ m).drop (i + xs.length) = m.drop (i - front.length + xs.length) := by
    rw [List.drop_append, List.drop_eq_nil_of_le (by omega), List.nil_append]
    congr 1
    omega
  rw [store, hdrop, List.take_append, List.take_of_length_le h, store, List.append_assoc, List.append_assoc, List.append_assoc]

end Yjc.CLib
