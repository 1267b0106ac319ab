import Mathlib.Data.List.DropRight
import Yjc.Lib.CBlock

/-! Trimming a line in place, in `base/cmd.c`. Characters from 128 on are no white space. -/

namespace Yjc.Base
open CLib Mem

/-- The index of the last `c`. -/
def strrchr (s : List UInt8) (c : UInt8) : Option ℕ := if c ∈ s then some (s.length - 1 - s.reverse.idxOf c) else none

/-- The last newline of the string `s` at the front of a block is overwritten. -/
def cmdTrimNewline (s m : List UInt8) : Option (List UInt8) :=
  match strrchr s (ch '\n') with
  | some newln => write m newln [0]
  | none => some m

/-- `while (isspace(*begin)) begin++`. -/
def cmdTrimSkip : List UInt8 → Option ℕ
  | [] => none
  | c :: m => if isspace c then (cmdTrimSkip m).map (· + 1) else some 0

/-- The text at `begin` is moved to the front. What `strlen` is given before the `memset` is a pointer less the length of the text. -/
def cmdTrimShift (m : List UInt8) (start : ℕ) : Option (List UInt8) := do
  let endLocation ← strlenAt m start
  let m ← memmove m 0 start (endLocation + 1)
  if start < endLocation then none
  else memzero m (start + endLocation) (← strlenAt m (start - endLocation))

/-- White space is overwritten backwards from `end` on. -/
def cmdTrimEnd (m : List UInt8) : ℕ → Option (List UInt8)
  | 0 => do if isspace (← m[0]?) then none else some m
  | e + 1 => do if isspace (← m[e + 1]?) then cmdTrimEnd (m.set (e + 1) 0) e else some m

/-- `cmd_trim` of the string at the front of a block. What leaves the block has no result. -/
def cmdTrim (m : List UInt8) : Option (List UInt8) := do
  let s ← stringAt m 0
  if s.length = 1 ∧ (m[0]? = some (ch '\n') ∨ m[0]? = some 0) then write m 0 [0]
  else
    let m ← cmdTrimNewline s m
    let start ← cmdTrimSkip m
    let m ← if start = 0 then some m else cmdTrimShift m start
    match ← strlenAt m 0 with
    | 0 => some m
    | e + 1 => cmdTrimEnd m e

/-- A string without the white space around it. -/
def trimmed (s : List UInt8) : List UInt8 := (s.dropWhile isspace).rdropWhile isspace

/-- `cmd_trim` leaves the trimmed string in a buffer that the string just fits. -/
def CmdTrims (s : List UInt8) : Prop := ∃ m, cmdTrim (s ++ [0]) = some m ∧ stringAt m 0 = some (trimmed s)

def withoutNewline (s : List UInt8) : List UInt8 := if s.getLast? = some (ch '\n') then s.dropLast else s

/-- The length of the string that begins `n` bytes before offset `k`, in a block where `n` characters have been moved from there to the front. -/
def cmdTrimCleared (k n : ℕ) : ℕ := if k ≤ 2 * n then 2 * n - k else 2 * n

/-- No white space before the text, or at least as much as there is text; then the bytes that are cleared from behind the old text on have
to be there. -/
def CmdTrimFits (s : List UInt8) : Prop :=
  let k := ((withoutNewline s).takeWhile isspace).length
  let n := ((withoutNewline s).dropWhile isspace).length
  k = 0 ∨ n ≤ k ∧ k + n + cmdTrimCleared k n ≤ s.length + 1

variable {s blanks text rest m : List UInt8} {c : UInt8} {k n : ℕ}

theorem cmdTrimSkip_append (h : ∀ c ∈ blanks, isspace c) (hc : ¬isspace c) (m : List UInt8) :
    cmdTrimSkip (blanks ++ c :: m) = some blanks.length := by
  induction blanks with
  | nil => exact if_neg hc
  | cons b blanks ih =>
    rw [List.cons_append, cmdTrimSkip, if_pos (h b List.mem_cons_self), ih fun c hc => h c (List.mem_cons_of_mem b hc)]
    rfl

theorem cmdTrimEnd_append (hne : text ≠ []) (h : NotFrom isspace text) (rest : List UInt8) :
    ∃ rest', cmdTrimEnd (text ++ 0 :: rest) (text.length - 1) = some (text.rdropWhile isspace ++ 0 :: rest') := by
  -- the text keeps its first character, where the loop stops at the latest
  induction text using List.reverseRecOn generalizing rest with
  | nil => exact absurd rfl hne
  | append_singleton xs x ih =>
    have hget : (xs ++ [x] ++ 0 :: rest)[xs.length]? = some x := by simp
    have hlen : (xs ++ [x]).length - 1 = xs.length := by simp
    rw [hlen]
    by_cases hx : isspace x
    · obtain ⟨c, ys, rfl⟩ : ∃ c ys, xs = c :: ys := by
        cases xs with
        | nil => exact absurd hx (notFrom_cons.mp h)
        | cons c ys => exact ⟨c, ys, rfl⟩
      obtain ⟨rest', hrest⟩ := ih (List.cons_ne_nil c ys) (notFrom_cons.mpr (notFrom_cons.mp h)) (0 :: rest)
      refine ⟨rest', ?_⟩
      have hset : (c :: ys ++ [x] ++ 0 :: rest).set (c :: ys).length 0 = c :: ys ++ 0 :: 0 :: rest := by
        rw [List.append_assoc, List.set_append_right _ _ (Nat.le_refl _), Nat.sub_self]
        rfl
      rw [List.length_cons] at hget hset ⊢
      rw [cmdTrimEnd, hget, Option.bind_eq_bind, Option.bind_some, if_pos hx, hset, List.rdropWhile_concat_pos _ _ _ hx]
      exact hrest
    · refine ⟨rest, ?_⟩
      rw [List.rdropWhile_concat_neg _ _ _ hx]
      cases hxs : xs.length with
      | zero =>
        rw [hxs] at hget
        rw [cmdTrimEnd, hget, Option.bind_eq_bind, Option.bind_some, if_neg hx]
      | succ e =>
        rw [hxs] at hget
        rw [cmdTrimEnd, hget, Option.bind_eq_bind, Option.bind_some, if_neg hx]

theorem isspace_ne (h : isspace c) : c ≠ 0 := by
  rintro rfl
  exact absurd h (by decide)

theorem zero_notMem (h : ∀ c ∈ blanks, isspace c) : 0 ∉ blanks := fun h0 => isspace_ne (h 0 h0) rfl

theorem strlenAt_shifted (hblanks : ∀ c ∈ blanks, isspace c) (htext : 0 ∉ text) (hk : blanks.length = k) (hn : text.length = n) (hle : n ≤ k)
    (rest : List UInt8) :
    strlenAt (text ++ 0 :: (blanks ++ (text ++ 0 :: rest)).drop (n + 1)) (k - n) = some (cmdTrimCleared k n) := by
  -- the length of the string that begins `n` bytes before the old place of the text: it ends with the text at its new place,
  -- or with that at its old one
  rw [cmdTrimCleared]
  split_ifs with hshort
  · have hsplit := List.take_append_drop (k - n) text
    have hlen : k - n = (text.take (k - n)).length := by rw [List.length_take]; omega
    have hdrop : 0 ∉ text.drop (k - n) := fun h0 => htext (List.mem_of_mem_drop h0)
    have hread := strlenAt_append hdrop hlen ((blanks ++ (text ++ 0 :: rest)).drop (n + 1))
    rw [← List.append_assoc, hsplit, List.length_drop] at hread
    rw [hread]
    congr 1
    omega
  · have hpast : (blanks ++ (text ++ 0 :: rest)).drop (n + 1) = blanks.drop (n + 1) ++ (text ++ 0 :: rest) :=
      List.drop_append_of_le_length (by omega)
    have hsplit := List.take_append_drop (k - 2 * n - 1) (blanks.drop (n + 1))
    rw [List.drop_drop, show n + 1 + (k - 2 * n - 1) = k - n by omega] at hsplit
    have hzero : 0 ∉ blanks.drop (k - n) ++ text := fun h0 =>
      (List.mem_append.mp h0).elim (fun h0 => zero_notMem hblanks (List.mem_of_mem_drop h0)) htext
    have hlen : k - n = (text ++ 0 :: (blanks.drop (n + 1)).take (k - 2 * n - 1)).length := by simp; omega
    have hread := strlenAt_append hzero hlen rest
    rw [List.append_assoc, List.cons_append, List.append_assoc (blanks.drop (k - n)), ← List.append_assoc _ (blanks.drop (k - n)), hsplit] at hread
    rw [hpast, hread, List.length_append, List.length_drop]
    congr 1
    omega

theorem memmove_front (hk : blanks.length = k) (hn : text.length = n) (rest : List UInt8) :
    memmove (blanks ++ (text ++ 0 :: rest)) 0 k (n + 1) = some (text ++ 0 :: (blanks ++ (text ++ 0 :: rest)).drop (n + 1)) := by
  have hslice : slice (blanks ++ (text ++ 0 :: rest)) k (k + (n + 1)) = text ++ [0] := by
    have hright := slice_append_right blanks (text ++ 0 :: rest) 0 (n + 1)
    rw [Nat.add_zero, hk, slice_zero] at hright
    rw [hright, List.append_cons]
    exact List.take_left' (by simp [hn])
  rw [memmove, if_pos (by simp; omega), hslice, write_eq (by simp; omega), store_zero]
  simp [hn]

theorem cmdTrimShift_cases (hblanks : ∀ c ∈ blanks, isspace c) (htext : 0 ∉ text) (hk : blanks.length = k) (hn : text.length = n) (hpos : k ≠ 0)
    (rest : List UInt8) :
    n ≤ k ∧ k + n + cmdTrimCleared k n ≤ k + n + 1 + rest.length ∧
        (∃ rest', cmdTrimShift (blanks ++ (text ++ 0 :: rest)) k = some (text ++ 0 :: rest')) ∨
      ¬(n ≤ k ∧ k + n + cmdTrimCleared k n ≤ k + n + 1 + rest.length) ∧
        cmdTrimShift (blanks ++ (text ++ 0 :: rest)) k = none := by
  have hshift : cmdTrimShift (blanks ++ (text ++ 0 :: rest)) k =
      if k < n then none
      else (strlenAt (text ++ 0 :: (blanks ++ (text ++ 0 :: rest)).drop (n + 1)) (k - n)).bind
        (memzero (text ++ 0 :: (blanks ++ (text ++ 0 :: rest)).drop (n + 1)) (k + n)) := by
    rw [cmdTrimShift, strlenAt_append htext hk.symm, Option.bind_eq_bind, Option.bind_some, hn, memmove_front hk hn]
    rfl
  rw [hshift]
  by_cases hle : n ≤ k
  · rw [if_neg (by omega), strlenAt_shifted hblanks htext hk hn hle, Option.bind_some]
    have hlen : (text ++ 0 :: (blanks ++ (text ++ 0 :: rest)).drop (n + 1)).length = k + n + 1 + rest.length := by simp; omega
    by_cases hfits : k + n + cmdTrimCleared k n ≤ k + n + 1 + rest.length
    · refine .inl ⟨hle, hfits, ?_⟩
      rw [memzero, write_eq (by rw [List.length_replicate, hlen]; exact hfits), List.append_cons, store_behind _ _ _ (by simp; omega),
        List.append_assoc]
      exact ⟨_, rfl⟩
    · refine .inr ⟨fun h => hfits h.2, ?_⟩
      rw [memzero, write, if_neg (by rwa [List.length_replicate, hlen])]
  · exact .inr ⟨fun h => hle h.1, if_pos (by omega)⟩

theorem cmdTrim_end (htext : 0 ∉ text) (h : NotFrom isspace text) (rest : List UInt8) :
    ∃ m, ((strlenAt (text ++ 0 :: rest) 0).bind fun n =>
        match n with
        | 0 => some (text ++ 0 :: rest)
        | e + 1 => cmdTrimEnd (text ++ 0 :: rest) e) = some m ∧ stringAt m 0 = some (text.rdropWhile isspace) := by
  rw [strlenAt_front htext, Option.bind_some]
  cases text with
  | nil => exact ⟨_, rfl, stringAt_front htext rest⟩
  | cons c cs =>
    obtain ⟨rest', hend⟩ := cmdTrimEnd_append (List.cons_ne_nil c cs) h rest
    exact ⟨_, hend, stringAt_front (fun h0 => htext ((List.rdropWhile_prefix isspace _).mem h0)) rest'⟩

theorem newline_written (hline : ch '\n' ∉ s.dropLast) :
    ∃ rest : List UInt8, (withoutNewline s).length + rest.length = s.length ∧
      cmdTrimNewline s (s ++ [0]) = some (withoutNewline s ++ 0 :: rest) := by
  rw [withoutNewline]
  split_ifs with hlast
  · obtain ⟨body, rfl⟩ := List.getLast?_eq_some_iff.mp hlast
    have hindex : strrchr (body ++ [ch '\n']) (ch '\n') = some body.length := by
      rw [strrchr, if_pos (List.mem_append_right body List.mem_cons_self)]
      simp
    rw [List.dropLast_concat]
    refine ⟨[0], by simp, ?_⟩
    rw [cmdTrimNewline, hindex, List.append_assoc]
    exact @write_append _ body [ch '\n'] [0] [0] body.length rfl rfl
  · refine ⟨[], rfl, ?_⟩
    have hmem : ch '\n' ∉ s := by
      intro hmem
      obtain ⟨init, last, rfl⟩ : ∃ init last, s = init ++ [last] :=
        ⟨s.dropLast, s.getLast (List.ne_nil_of_mem hmem), (List.dropLast_append_getLast _).symm⟩
      rw [List.dropLast_concat] at hline
      rw [List.getLast?_concat] at hlast
      have hnew : ch '\n' = last := by simpa [hline] using hmem
      exact hlast (congrArg some hnew.symm)
    rw [cmdTrimNewline, strrchr, if_neg hmem]

theorem trimmed_withoutNewline (s : List UInt8) : trimmed (withoutNewline s) = trimmed s := by
  rw [withoutNewline]
  split_ifs with hlast
  · obtain ⟨body, rfl⟩ := List.getLast?_eq_some_iff.mp hlast
    have hnew : [ch '\n'].dropWhile isspace = [] := rfl
    rw [List.dropLast_concat, trimmed, trimmed, List.dropWhile_append, hnew]
    split_ifs with hempty
    · rw [List.isEmpty_iff.mp hempty]
    · exact (List.rdropWhile_concat_pos isspace _ _ rfl).symm
  · rfl

theorem cmdTrim_rest (hblanks : ∀ c ∈ blanks, isspace c) (htext : 0 ∉ text) (hnot : NotFrom isspace text) (rest : List UInt8) :
    (∃ m, (do
        let start ← cmdTrimSkip (blanks ++ (text ++ 0 :: rest))
        let m ← if start = 0 then some (blanks ++ (text ++ 0 :: rest)) else cmdTrimShift (blanks ++ (text ++ 0 :: rest)) start
        match ← strlenAt m 0 with
        | 0 => some m
        | e + 1 => cmdTrimEnd m e) = some m ∧ stringAt m 0 = some (text.rdropWhile isspace)) ↔
      blanks.length = 0 ∨ text.length ≤ blanks.length ∧
        blanks.length + text.length + cmdTrimCleared blanks.length text.length ≤ blanks.length + text.length + 1 + rest.length := by
  have hskip : cmdTrimSkip (blanks ++ (text ++ 0 :: rest)) = some blanks.length := by
    cases text with
    | nil => exact cmdTrimSkip_append hblanks (by decide) rest
    | cons c cs => exact cmdTrimSkip_append hblanks (notFrom_cons.mp hnot) _
  rw [hskip, Option.bind_eq_bind, Option.bind_some]
  by_cases hk : blanks.length = 0
  · rw [if_pos hk, List.length_eq_zero_iff.mp hk]
    exact iff_of_true (cmdTrim_end htext hnot rest) (.inl rfl)
  · rw [if_neg hk]
    obtain ⟨hle, hfits, rest', hshift⟩ | ⟨hfits, hshift⟩ := cmdTrimShift_cases hblanks htext rfl rfl hk rest
    · rw [hshift]
      exact iff_of_true (cmdTrim_end htext hnot rest') (.inr ⟨hle, hfits⟩)
    · rw [hshift]
      refine iff_of_false ?_ fun h => h.elim hk hfits
      rintro ⟨m, hm, -⟩
      cases hm

/-- The line is trimmed in its buffer exactly if there is no white space before the text, or the bytes that are cleared are there. -/
theorem cmdTrim_iff (s : List UInt8) (h : 0 ∉ s) (hline : ch '\n' ∉ s.dropLast) : CmdTrims s ↔ CmdTrimFits s := by
  obtain ⟨rest, hlen, hwrite⟩ := newline_written hline
  have hbody : 0 ∉ withoutNewline s := by
    rw [withoutNewline]
    split_ifs
    · exact fun h0 => h (List.dropLast_subset _ h0)
    · exact h
  obtain ⟨blanks, text, hsplit, hblanks, hnot, htake, hdrop⟩ := exists_span isspace (withoutNewline s)
  have hsum : blanks.length + text.length = (withoutNewline s).length := by rw [hsplit, List.length_append]
  rw [CmdTrims, CmdTrimFits, cmdTrim, stringAt_front h, Option.bind_eq_bind, Option.bind_some, ← trimmed_withoutNewline, trimmed, htake, hdrop]
  by_cases hone : s = [ch '\n']
  · subst hone
    have hb : blanks = [] := htake.symm
    have ht : text = [] := hdrop.symm
    subst hb ht
    exact iff_of_true ⟨_, rfl, rfl⟩ (.inl rfl)
  · have hcond : ¬(s.length = 1 ∧ ((s ++ [0])[0]? = some (ch '\n') ∨ (s ++ [0])[0]? = some 0)) := by
      rintro ⟨hlen1, hhead⟩
      obtain ⟨c, rfl⟩ := List.length_eq_one_iff.mp hlen1
      rcases hhead with hc | hc
      · exact hone (by rw [Option.some.inj hc])
      · exact h (by rw [Option.some.inj hc]; exact List.mem_cons_self)
    have hrest := cmdTrim_rest hblanks (fun h0 => hbody (hsplit ▸ List.mem_append_right blanks h0)) hnot rest
    rw [if_neg hcond, hwrite, hsplit, List.append_assoc]
    rw [show blanks.length + text.length + 1 + rest.length = s.length + 1 by omega] at hrest
    exact hrest

theorem cmdTrim_iff_short : CmdTrims [ch ' ', ch ' ', ch 'a', ch '\n'] ↔ CmdTrimFits [ch ' ', ch ' ', ch 'a', ch '\n'] :=
  cmdTrim_iff _ (by decide) (by decide)

/-- A blank before a word: `strlen` is called with a pointer before the buffer. -/
theorem cmdTrim_before : ¬CmdTrims [ch ' ', ch 'l', ch 's'] := by
  rintro ⟨m, hm, -⟩
  have hnone : cmdTrim ([ch ' ', ch 'l', ch 's'] ++ [0]) = none := by decide
  exact Option.some_ne_none m (hm.symm.trans hnone)

end Yjc.Base
