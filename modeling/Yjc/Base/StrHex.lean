import Yjc.Lib.CBlock
import Yjc.Lib.CText

/-! Bytes as hexadecimal text, `str_hex` of `base/str.c`. -/

namespace Yjc.Base
open CLib Mem

/-- `str_hex` to a buffer `buff`, of which it is told that it has `bufsiz` bytes. A write behind the buffer has no result. -/
def strHex (buff : List UInt8) (bufsiz : ℕ) (str : List UInt8) : Option (List UInt8) :=
  if bufsiz = 0 then some buff
  else do str.foldlM (fun m b => strncat m (hex2 b) bufsiz) (← write buff 0 [0])

/-- The text of the bytes, as much of it as the buffer holds, is written within the buffer. -/
def StrHexFits (buff str : List UInt8) : Prop :=
  ∃ m, strHex buff buff.length str = some m ∧ m.length = buff.length ∧ stringAt m 0 = some ((str.flatMap hex2).take (buff.length - 1))

variable {s rest str : List UInt8} {n : ℕ}

theorem strncat_append (h : 0 ∉ s) (b : UInt8) (rest : List UInt8) (hn : 2 ≤ n) :
    strncat (s ++ 0 :: rest) (hex2 b) n =
      if 2 ≤ rest.length then some (s ++ hex2 b ++ 0 :: rest.drop 2) else none := by
  have hhex : (hex2 b).take n = hex2 b := List.take_of_length_le hn
  rw [strncat, strlenAt_front h, Option.bind_eq_bind, Option.bind_some, hhex]
  split_ifs with hrest
  · obtain ⟨old, post, rfl, hlen⟩ := exists_append hrest
    have hwrite := @write_append _ s (0 :: old) post (hex2 b ++ [0]) s.length rfl (by rw [List.length_cons, hlen]; rfl)
    rw [List.cons_append] at hwrite
    rw [hwrite, List.drop_left' hlen]
    simp
  · rw [write, if_neg]
    have hb : (hex2 b).length = 2 := rfl
    simp only [List.length_append, List.length_cons, List.length_nil, hb]
    omega

theorem zero_notMem_hex2 (b : UInt8) : 0 ∉ hex2 b := fun h0 => absurd (isxdigit_hex2 b 0 h0) (by decide)

theorem strHex_foldlM (h : 0 ∉ s) (hn : 2 ≤ n) (rest str : List UInt8) :
    if 2 * str.length ≤ rest.length then
      ∃ post, str.foldlM (fun m b => strncat m (hex2 b) n) (s ++ 0 :: rest) = some (s ++ str.flatMap hex2 ++ 0 :: post) ∧
        0 ∉ s ++ str.flatMap hex2 ∧ 2 * str.length + post.length = rest.length
    else str.foldlM (fun m b => strncat m (hex2 b) n) (s ++ 0 :: rest) = none := by
  induction str generalizing s rest with
  | nil => exact ⟨rest, by simp, by simpa using h, by simp⟩
  | cons b str ih =>
    rw [List.foldlM_cons, strncat_append h b rest hn]
    have hs : 0 ∉ s ++ hex2 b := fun h0 => (List.mem_append.mp h0).elim h (zero_notMem_hex2 b)
    have hnext := ih hs (rest.drop 2)
    rw [List.length_drop] at hnext
    by_cases htwo : 2 ≤ rest.length
    · rw [if_pos htwo, Option.bind_eq_bind, Option.bind_some, List.length_cons]
      by_cases hall : 2 * str.length ≤ rest.length - 2
      · rw [if_pos (by omega)]
        rw [if_pos hall] at hnext
        obtain ⟨post, hfold, hzero, hlen⟩ := hnext
        have htext : s ++ hex2 b ++ str.flatMap hex2 = s ++ (b :: str).flatMap hex2 := by rw [List.flatMap_cons, List.append_assoc]
        rw [htext] at hfold hzero
        exact ⟨post, hfold, hzero, by omega⟩
      · rw [if_neg (by omega)]
        rwa [if_neg hall] at hnext
    · rw [if_neg htwo, if_neg (by rw [List.length_cons]; omega)]
      rfl

/-- The bound on each concatenation is no bound on the text: a text that fits is written, and one that does not is written past the buffer. -/
theorem strHex_iff (buff str : List UInt8) (h : 1 ≤ buff.length) : StrHexFits buff str ↔ 2 * str.length < buff.length := by
  obtain ⟨c, rest, rfl⟩ := List.exists_cons_of_length_pos h
  have hstart : strHex (c :: rest) (c :: rest).length str =
      str.foldlM (fun m b => strncat m (hex2 b) (c :: rest).length) (0 :: rest) := by
    rw [strHex, if_neg (by simp), write_eq (by simp), store_zero]
    rfl
  rw [StrHexFits, hstart, List.length_cons, Nat.add_sub_cancel]
  cases rest with
  | nil =>
    cases str with
    | nil => exact iff_of_true ⟨_, rfl, rfl, rfl⟩ (by decide)
    | cons b str =>
      refine iff_of_false ?_ (by simp)
      rintro ⟨m, hm, -⟩
      have hfirst : strncat [0] (hex2 b) 1 = none := rfl
      rw [List.length_nil, List.foldlM_cons, hfirst] at hm
      cases hm
  | cons d rest =>
    have hfold := @strHex_foldlM [] (c :: d :: rest).length List.not_mem_nil (by simp) (d :: rest) str
    by_cases hfits : 2 * str.length ≤ (d :: rest).length
    · rw [if_pos hfits] at hfold
      obtain ⟨post, hrun, hzero, hlen⟩ := hfold
      have htext := length_flatMap_hex2 str
      refine iff_of_true ⟨_, hrun, ?_, ?_⟩ (by omega)
      · rw [List.nil_append, List.length_append, htext, List.length_cons, ← hlen]
        omega
      · rw [stringAt_front hzero, List.nil_append, List.take_of_length_le (by omega)]
    · rw [if_neg hfits] at hfold
      refine iff_of_false ?_ (by omega)
      rintro ⟨m, hm, -⟩
      exact Option.some_ne_none m (hm.symm.trans hfold)

theorem strHex_iff_one : StrHexFits [1, 2, 3] [0xab] ↔ 2 * List.length [(0xab : UInt8)] < List.length [(1 : UInt8), 2, 3] :=
  strHex_iff _ _ (by decide)

/-- Two bytes for a buffer of four: their `NUL` is written behind it. -/
theorem strHex_overrun : ¬StrHexFits [0, 0, 0, 0] [0xab, 0xcd] := by
  rintro ⟨m, hm, -⟩
  have hnone : strHex [0, 0, 0, 0] 4 [0xab, 0xcd] = none := by decide
  exact Option.some_ne_none m (hm.symm.trans hnone)

end Yjc.Base
