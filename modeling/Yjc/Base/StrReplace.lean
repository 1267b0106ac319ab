import Yjc.Lib.CBlock
import Yjc.Lib.Loop

/-! `str_replace` of `base/str.c`, which looks for the next occurrence from the beginning of what it has made so far. Allocations succeed. -/

namespace Yjc.Base
open CLib Mem

/-- The offset of the first occurrence. -/
def strstr (find : List UInt8) : List UInt8 → Option ℕ
  | [] => if find = [] then some 0 else none
  | c :: s => if find.isPrefixOf (c :: s) then some 0 else (strstr find s).map (· + 1)

/-- A round of the loop of `str_replace`, on the block of `nustr`. An access outside of the block ends it without a result. -/
def strReplaceRound (find replace nustr : List UInt8) : List UInt8 ⊕ Option (List UInt8) :=
  match stringAt nustr 0 with
  | none => .inr none
  | some s =>
    match strstr find s with
    | none => .inr (some nustr)
    | some ch =>
      let nustr := if find.length < replace.length then zrealloc nustr (s.length + replace.length - find.length + 1) else nustr
      let taillen := s.length - (ch + find.length)
      match (memmove nustr (ch + replace.length) (ch + find.length) (taillen + 1)).bind (write · ch replace) with
      | none => .inr none
      | some nustr => .inl nustr

/-- `str_replace` returns the string `r`. -/
def StrReplace (find replace str r : List UInt8) : Prop :=
  ∃ fuel m, Loop.run (strReplaceRound find replace) fuel (str ++ [0]) = some (some m) ∧ stringAt m 0 = some r

/-- What is around the occurrences of `find` that are found from left to right and do not overlap. -/
def pieces (find : List UInt8) : List UInt8 → List (List UInt8)
  | [] => [[]]
  | c :: s =>
    if 0 < find.length ∧ find.isPrefixOf (c :: s) then [] :: pieces find ((c :: s).drop find.length)
    else
      match pieces find s with
      | [] => [[c]]
      | u :: us => (c :: u) :: us
termination_by s => s.length
decreasing_by
  · rw [List.length_drop, List.length_cons]
    omega
  · exact Nat.lt_succ_self _

def replaceAll (find replace str : List UInt8) : List UInt8 := replace.intercalate (pieces find str)

/-- The string whose first `i` occurrences have been replaced. -/
def replaced (find replace : List UInt8) (us : List (List UInt8)) (i : ℕ) : List UInt8 :=
  replace.intercalate (us.take (i + 1)) ++ (us.drop (i + 1)).flatMap (find ++ ·)

def replaceFirst (find replace s : List UInt8) : List UInt8 :=
  match strstr find s with
  | none => s
  | some ch => s.take ch ++ (replace ++ s.drop (ch + find.length))

/-- In the string whose first `i` occurrences have been replaced, replacing whatever is now the first occurrence gives that with `i + 1`
replaced; and no occurrence is left when all are replaced. -/
structure ReplacesInOrder (find replace str : List UInt8) : Prop where
  next : ∀ i, i + 1 < (pieces find str).length →
    replaceFirst find replace (replaced find replace (pieces find str) i) = replaced find replace (pieces find str) (i + 1)
  last : strstr find (replaceAll find replace str) = none

variable {find replace s a b str post : List UInt8} {i : ℕ}

theorem strstr_some (h : strstr find s = some i) : ∃ a b, s = a ++ (find ++ b) ∧ a.length = i := by
  induction s generalizing i with
  | nil =>
    rw [strstr] at h
    split_ifs at h with hfind
    cases h
    exact ⟨[], [], by rw [hfind]; rfl, rfl⟩
  | cons c s ih =>
    rw [strstr] at h
    split_ifs at h with hprefix
    · cases h
      obtain ⟨b, hb⟩ := List.isPrefixOf_iff_prefix.mp hprefix
      exact ⟨[], b, hb.symm, rfl⟩
    · obtain ⟨n, hn, rfl⟩ := Option.map_eq_some_iff.mp h
      obtain ⟨a, b, hs, hlen⟩ := ih hn
      exact ⟨c :: a, b, by rw [hs]; rfl, by rw [List.length_cons, hlen]⟩

theorem exists_realloc (s post : List UInt8) :
    ∃ post', (if find.length < replace.length then zrealloc (s ++ 0 :: post) (s.length + replace.length - find.length + 1) else s ++ 0 :: post) =
      s ++ 0 :: post' ∧ replace.length ≤ find.length + post'.length := by
  split_ifs with hlt
  · obtain ⟨n, hn⟩ : ∃ n, s.length + replace.length - find.length + 1 = (s ++ [0]).length + n :=
      ⟨replace.length - find.length, by rw [List.length_append, List.length_singleton]; omega⟩
    have htake : (s ++ 0 :: post).take (s.length + replace.length - find.length + 1) = s ++ [0] ++ post.take n := by
      rw [hn, List.append_cons s 0 post, List.take_length_add_append]
    refine ⟨post.take n ++ List.replicate (s.length + replace.length - find.length + 1 - (s ++ 0 :: post).length) default, ?_, ?_⟩
    · rw [zrealloc, htake, List.append_assoc, List.append_assoc]
      rfl
    · rw [List.length_append, List.length_singleton] at hn
      simp only [List.length_append, List.length_take, List.length_replicate, List.length_cons]
      omega
  · exact ⟨post, rfl, by omega⟩

theorem replace_written (hroom : replace.length ≤ find.length + post.length) :
    ∃ post', (memmove (a ++ (find ++ b) ++ 0 :: post) (a.length + replace.length) (a.length + find.length) (b.length + 1)).bind
      (write · a.length replace) = some (a ++ (replace ++ b) ++ 0 :: post') := by
  have hslice : slice (a ++ (find ++ b) ++ 0 :: post) (a.length + find.length) (a.length + find.length + (b.length + 1)) = b ++ [0] := by
    have hright := slice_append_right (a ++ find) (b ++ 0 :: post) 0 (b.length + 1)
    rw [List.length_append, Nat.add_zero, slice_zero, List.append_cons, List.take_left' (by simp)] at hright
    rw [← hright]
    simp
  obtain ⟨gap, tail, hsplit, hgap⟩ := exists_append (show replace.length ≤ (find ++ b ++ 0 :: post).length by simp; omega)
  have hlen := congrArg List.length hsplit
  simp only [List.length_append, List.length_cons] at hlen
  obtain ⟨old, post', rfl, hold⟩ := exists_append (show (b ++ [0]).length ≤ tail.length by simp; omega)
  have hblock : a ++ (find ++ b) ++ 0 :: post = a ++ gap ++ (old ++ post') := by
    rw [List.append_assoc a (find ++ b), hsplit, List.append_assoc]
  have hmoved := @write_append _ (a ++ gap) old post' (b ++ [0]) (a.length + replace.length) (by rw [List.length_append, hgap]) hold
  have hcopied := @write_append _ a gap (b ++ [0] ++ post') replace a.length rfl hgap
  refine ⟨post', ?_⟩
  rw [memmove, if_pos (by simp; omega), hslice, hblock, hmoved, Option.bind_some, List.append_assoc a gap, hcopied]
  simp

theorem strReplaceRound_some (h : 0 ∉ s) (hch : strstr find s = some i) (post : List UInt8) :
    ∃ post', strReplaceRound find replace (s ++ 0 :: post) = .inl (replaceFirst find replace s ++ 0 :: post') := by
  obtain ⟨a, b, rfl, rfl⟩ := strstr_some hch
  obtain ⟨post₁, hrealloc, hroom⟩ := @exists_realloc find replace (a ++ (find ++ b)) post
  obtain ⟨post', hwritten⟩ := @replace_written find replace a b _ hroom
  refine ⟨post', ?_⟩
  have htail : (a ++ (find ++ b)).length - (a.length + find.length) = b.length := by simp; omega
  have hfirst : replaceFirst find replace (a ++ (find ++ b)) = a ++ (replace ++ b) := by
    have hdrop : (a ++ (find ++ b)).drop (a.length + find.length) = b := by rw [← List.drop_drop, List.drop_left, List.drop_left]
    rw [replaceFirst, hch]
    simp only [List.take_left, hdrop]
  rw [strReplaceRound, stringAt_front h]
  simp only [hch, hrealloc, htail, hwritten, hfirst]

theorem strReplaceRound_none (h : 0 ∉ s) (hch : strstr find s = none) (post : List UInt8) :
    strReplaceRound find replace (s ++ 0 :: post) = .inr (some (s ++ 0 :: post)) := by
  rw [strReplaceRound, stringAt_front h]
  simp only [hch]

theorem strstr_append (a find b : List UInt8) : strstr find (a ++ (find ++ b)) ≠ none := by
  induction a with
  | nil =>
    cases hs : find ++ b with
    | nil =>
      rw [List.nil_append, strstr, if_pos (List.append_eq_nil_iff.mp hs).1]
      exact Option.some_ne_none 0
    | cons c s =>
      have hprefix : find.isPrefixOf (c :: s) := List.isPrefixOf_iff_prefix.mpr ⟨b, hs⟩
      rw [List.nil_append, strstr, if_pos hprefix]
      exact Option.some_ne_none 0
  | cons c a ih =>
    rw [List.cons_append, strstr]
    split_ifs
    · exact Option.some_ne_none 0
    · rw [ne_eq, Option.map_eq_none_iff]
      exact ih

theorem replaceFirst_zero (hs : 0 ∉ s) (hreplace : 0 ∉ replace) : 0 ∉ replaceFirst find replace s := by
  rw [replaceFirst]
  split
  · exact hs
  · intro h0
    rcases List.mem_append.mp h0 with h0 | h0
    · exact hs (List.mem_of_mem_take h0)
    · exact (List.mem_append.mp h0).elim hreplace fun h0 => hs (List.mem_of_mem_drop h0)

theorem pieces_ne_nil (find str : List UInt8) : pieces find str ≠ [] := by
  cases str with
  | nil => simp [pieces]
  | cons c s =>
    rw [pieces]
    split_ifs
    · exact List.cons_ne_nil _ _
    · split <;> exact List.cons_ne_nil _ _

theorem replaced_head (find replace u : List UInt8) (us : List (List UInt8)) :
    replaced find replace (u :: us) 0 = u ++ us.flatMap (find ++ ·) := by
  rw [replaced, Nat.zero_add, List.take_succ_cons, List.take_zero, List.intercalate_singleton, List.drop_succ_cons, List.drop_zero]

theorem replaced_zero (find replace str : List UInt8) : replaced find replace (pieces find str) 0 = str := by
  induction str using pieces.induct find with
  | case1 => simp [pieces, replaced_head]
  | case2 c s hcond ih =>
    obtain ⟨b, hb⟩ := List.isPrefixOf_iff_prefix.mp hcond.2
    have hdrop : (c :: s).drop find.length = b := by rw [← hb, List.drop_left]
    rw [pieces, if_pos hcond, replaced_head]
    rw [hdrop] at ih ⊢
    cases hus : pieces find b with
    | nil => exact absurd hus (pieces_ne_nil find b)
    | cons u us =>
      rw [hus, replaced_head] at ih
      rw [List.nil_append, List.flatMap_cons, List.append_assoc, ih, hb]
  | case3 c s hcond hnil ih => exact absurd hnil (pieces_ne_nil find s)
  | case4 c s hcond u us hus ih =>
    rw [hus, replaced_head] at ih
    rw [pieces, if_neg hcond, hus, replaced_head, List.cons_append, ih]

theorem replaced_last (find replace str : List UInt8) :
    replaced find replace (pieces find str) ((pieces find str).length - 1) = replaceAll find replace str := by
  have hpos := List.length_pos_iff.mpr (pieces_ne_nil find str)
  rw [replaced, Nat.sub_add_cancel hpos, List.take_length, List.drop_length, List.flatMap_nil, List.append_nil, replaceAll]

theorem strstr_replaced {us : List (List UInt8)} {i : ℕ} (h : i + 1 < us.length) : strstr find (replaced find replace us i) ≠ none := by
  rw [replaced, List.drop_eq_getElem_cons h, List.flatMap_cons, List.append_assoc]
  exact strstr_append _ _ _

/-- Strings in which the occurrences are met in order are returned with all of them replaced. -/
theorem strReplace_of_replacesInOrder (find replace str : List UInt8) (hstr : 0 ∉ str) (hreplace : 0 ∉ replace)
    (h : ReplacesInOrder find replace str) : StrReplace find replace str (replaceAll find replace str) := by
  have hround : ∀ k i post, i + 1 + k = (pieces find str).length → 0 ∉ replaced find replace (pieces find str) i →
      ∃ fuel m, Loop.run (strReplaceRound find replace) fuel (replaced find replace (pieces find str) i ++ 0 :: post) = some (some m) ∧
        stringAt m 0 = some (replaceAll find replace str) := by
    intro k
    induction k with
    | zero =>
      intro i post hi hzero
      have hlast : replaced find replace (pieces find str) i = replaceAll find replace str := by
        rw [← replaced_last]
        congr 1
        omega
      rw [hlast] at hzero ⊢
      exact ⟨1, _, Loop.run_leave (strReplaceRound_none hzero h.last post) 0, stringAt_front hzero post⟩
    | succ k ih =>
      intro i post hi hzero
      have hmore : i + 1 < (pieces find str).length := by omega
      obtain ⟨j, hch⟩ := Option.ne_none_iff_exists'.mp (@strstr_replaced find replace _ _ hmore)
      obtain ⟨post', hround⟩ := strReplaceRound_some hzero hch post
      have hnext := h.next i hmore
      have hzero' : 0 ∉ replaced find replace (pieces find str) (i + 1) := hnext ▸ replaceFirst_zero hzero hreplace
      obtain ⟨fuel, m, hrun, hm⟩ := ih (i + 1) post' (by omega) hzero'
      rw [hnext] at hround
      exact ⟨fuel + 1, m, (Loop.run_again hround fuel).trans hrun, hm⟩
  obtain ⟨k, hk⟩ := Nat.exists_eq_add_of_le (List.length_pos_iff.mpr (pieces_ne_nil find str))
  have hstart := hround k 0 [] (by omega) (by rwa [replaced_zero])
  rw [replaced_zero] at hstart
  exact hstart

theorem strReplace_of_replacesInOrder_words :
    replaceAll [ch 'a', ch 'b'] [ch 'c'] [ch 'a', ch 'b', ch 'x', ch 'a', ch 'b'] = [ch 'c', ch 'x', ch 'c'] ∧
      StrReplace [ch 'a', ch 'b'] [ch 'c'] [ch 'a', ch 'b', ch 'x', ch 'a', ch 'b']
        (replaceAll [ch 'a', ch 'b'] [ch 'c'] [ch 'a', ch 'b', ch 'x', ch 'a', ch 'b']) := by
  have hpieces : pieces [ch 'a', ch 'b'] [ch 'a', ch 'b', ch 'x', ch 'a', ch 'b'] = [[], [ch 'x'], []] := by
    simp [pieces, ch]
  have hall : replaceAll [ch 'a', ch 'b'] [ch 'c'] [ch 'a', ch 'b', ch 'x', ch 'a', ch 'b'] = [ch 'c', ch 'x', ch 'c'] := by
    rw [replaceAll, hpieces]
    decide
  refine ⟨hall, strReplace_of_replacesInOrder _ _ _ (by decide) (by decide) ⟨?_, ?_⟩⟩
  · rw [hpieces]
    intro i hi
    have hcases : i = 0 ∨ i = 1 := by simp at hi; omega
    rcases hcases with rfl | rfl <;> decide
  · rw [hall]
    decide

/-- What is put in makes an occurrence with the text after it, and that is replaced too. -/
theorem strReplace_created : replaceAll [ch 'a', ch 'b'] [ch 'a'] [ch 'a', ch 'b', ch 'b'] = [ch 'a', ch 'b'] ∧
    ¬StrReplace [ch 'a', ch 'b'] [ch 'a'] [ch 'a', ch 'b', ch 'b'] (replaceAll [ch 'a', ch 'b'] [ch 'a'] [ch 'a', ch 'b', ch 'b']) := by
  have hpieces : pieces [ch 'a', ch 'b'] [ch 'a', ch 'b', ch 'b'] = [[], [ch 'b']] := by
    simp [pieces, ch]
  have hall : replaceAll [ch 'a', ch 'b'] [ch 'a'] [ch 'a', ch 'b', ch 'b'] = [ch 'a', ch 'b'] := by
    rw [replaceAll, hpieces]
    decide
  refine ⟨hall, ?_⟩
  rintro ⟨fuel, m, hrun, hm⟩
  have hthree : Loop.run (strReplaceRound [ch 'a', ch 'b'] [ch 'a']) 3 ([ch 'a', ch 'b', ch 'b'] ++ [0]) = some (some [ch 'a', 0, 0, 0]) := by
    decide
  have hsame : some [ch 'a', 0, 0, 0] = some m := by
    rcases Nat.le_total 3 fuel with hle | hle
    · exact Option.some.inj ((Loop.run_mono hle hthree).symm.trans hrun)
    · exact Option.some.inj (hthree.symm.trans (Loop.run_mono hle hrun))
  rw [← Option.some.inj hsame, hall] at hm
  exact absurd hm (by decide)

theorem strReplace_diverges (h : find <:+: replace) (hreplace : 0 ∉ replace) (hstr : 0 ∉ str) (hfound : strstr find str ≠ none) (r : List UInt8) :
    ¬StrReplace find replace str r := by
  -- where `replace` contains `find`, the loop never ends on a string with an occurrence
  rintro ⟨fuel, m, hrun, -⟩
  have hnone := Loop.run_none_of_trapped (strReplaceRound find replace)
    (fun nustr => ∃ s post, nustr = s ++ 0 :: post ∧ 0 ∉ s ∧ strstr find s ≠ none) (by
      rintro nustr ⟨s, post, rfl, hs, hfound⟩
      obtain ⟨i, hch⟩ := Option.ne_none_iff_exists'.mp hfound
      obtain ⟨post', hround⟩ := @strReplaceRound_some find replace s i hs hch post
      refine ⟨_, hround, _, post', rfl, replaceFirst_zero hs hreplace, ?_⟩
      obtain ⟨before, after, rfl⟩ := h
      have hsplit : replaceFirst find (before ++ find ++ after) s =
          s.take i ++ before ++ (find ++ (after ++ s.drop (i + find.length))) := by
        rw [replaceFirst, hch]
        simp
      rw [hsplit]
      exact strstr_append _ _ _)
    ⟨str, [], rfl, hstr, hfound⟩ fuel
  rw [hnone] at hrun
  cases hrun

end Yjc.Base
