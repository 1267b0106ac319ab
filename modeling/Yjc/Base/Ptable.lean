import Mathlib.Algebra.GroupWithZero.Nat
import Mathlib.Data.List.GetD
import Yjc.Lib.CBlock
import Yjc.Lib.Loop

/-! The rows of a table, in `base/ptable.c`. Allocations succeed. -/

namespace Yjc.Base
open CLib Mem

/-- `CPSTART`: not a continuation byte of UTF-8. -/
def cpStart (c : UInt8) : Bool := c >>> 6 ≠ 2

def utf8len (s : List UInt8) : ℕ := s.countP cpStart

def delim : UInt8 := 0x1f

abbrev PtableRow := List (Option (List UInt8))

structure Ptable where
  cols : ℕ
  alloc : ℕ
  max : List ℕ
  data : List PtableRow
  headers : List (List UInt8)
  fmt : Option (List UInt8)

/-- `ptable_init` with the headers and formats of its columns. -/
def ptableInit (columns : List (List UInt8 × List UInt8)) : Ptable where
  cols := columns.length
  alloc := 0
  max := columns.map fun c => utf8len c.1
  data := []
  headers := columns.map Prod.fst
  fmt := if columns = [] then none else some (columns.flatMap fun c => c.2 ++ [delim])

/-- What a format of `%s` and other characters makes of strings. Any other directive, and a string too few, has no result. -/
def formatted : List UInt8 → List (List UInt8) → Option (List UInt8)
  | [], _ => some []
  | c :: fmt, args =>
    if c = ch '%' then
      match fmt, args with
      | d :: fmt, s :: args => if d = ch 's' then (formatted fmt args).map (s ++ ·) else none
      | _, _ => none
    else (formatted fmt args).map (c :: ·)

/-- `vsnprintf`, which keeps one byte for the `NUL`. -/
def vsnprintf (size : ℕ) (fmt : List UInt8) (args : List (List UInt8)) : Option (List UInt8) := (formatted fmt args).map (·.take (size - 1))

/-- `strtok` from where it stopped: the next field that is not empty, and what is left after it. -/
def strtok (s : List UInt8) : Option (List UInt8 × List UInt8) :=
  let s := s.dropWhile (· = delim)
  if s = [] then none else some (s.takeWhile (· ≠ delim), (s.dropWhile (· ≠ delim)).drop 1)

/-- The loop of `ptable_add` over the fields of the buffer. -/
structure PtableFields where
  buffer : List UInt8
  i : ℕ
  row : PtableRow
  max : List ℕ

/-- A round of it, which has no result where it leaves the arrays. -/
def ptableAddRound (t : PtableFields) : PtableFields ⊕ Option (PtableRow × List ℕ) :=
  match strtok t.buffer with
  | none => .inr (some (t.row, t.max))
  | some (field, buffer) =>
    match write t.row t.i [some field], t.max[t.i]? with
    | some row, some m => .inl ⟨buffer, t.i + 1, row, t.max.set t.i (Nat.max m (utf8len field))⟩
    | _, _ => .inr none

/-- `ptable_add`. Without a column there is no format, and no result. -/
def ptableAdd (t : Ptable) (args : List (List UInt8)) : Option Ptable := do
  let alloc := if t.data.length = t.alloc then t.alloc * 2 + 4 else t.alloc
  let buffer ← vsnprintf 512 (← t.fmt) args
  let (row, max) ← (Loop.run ptableAddRound (buffer.length + 1) ⟨buffer, 0, List.replicate t.cols none, t.max⟩).join
  return { t with alloc := alloc, data := t.data ++ [row], max := max }

/-- A table with `%s` columns to which rows have been added. -/
def ptableOf (headers : List (List UInt8)) (rows : List (List (List UInt8))) : Option Ptable :=
  rows.foldlM ptableAdd (ptableInit (headers.map fun h => (h, [ch '%', ch 's'])))

def columnMax (headers : List (List UInt8)) (rows : List (List (List UInt8))) (i : ℕ) : ℕ :=
  (rows.map fun row => utf8len (row.getD i [])).foldl Nat.max (utf8len (headers.getD i []))

/-- A table holds its headers, the strings of its rows and the length of the longest string of each column. -/
structure Ptable.Holds (t : Ptable) (names : List (List UInt8)) (rows : List (List (List UInt8))) : Prop where
  cols : t.cols = names.length
  headers : t.headers = names
  data : t.data = rows.map (·.map some)
  max : t.max = (List.range names.length).map (columnMax names rows)

/-- A row of strings without the delimiter, that fits its table and the buffer. -/
structure PtableArgs (n : ℕ) (row : List (List UInt8)) : Prop where
  cols : row.length = n
  plain : ∀ s ∈ row, 0 ∉ s ∧ delim ∉ s
  room : (row.map List.length).sum + n < 512

/-! ## The fields of a row -/

variable {s rest : List UInt8} {row : PtableRow} {ss : List (List UInt8)} {i k : ℕ} {max : List ℕ}

theorem strtok_delim (rest : List UInt8) : strtok (delim :: rest) = strtok rest := by
  rw [strtok, strtok, List.dropWhile_cons_of_pos (by decide)]

theorem strtok_append (hne : s ≠ []) (hs : delim ∉ s) (rest : List UInt8) : strtok (s ++ delim :: rest) = some (s, rest) := by
  cases s with
  | nil => exact absurd rfl hne
  | cons c s =>
    have hc : c ≠ delim := fun h => hs (h ▸ List.mem_cons_self)
    have hall : ∀ d ∈ c :: s, decide (d ≠ delim) = true := fun d hd => decide_eq_true (ne_of_mem_of_not_mem hd hs)
    have hspan := span_append (p := fun d => decide (d ≠ delim)) hall (notFrom_cons.mpr (by decide) : NotFrom _ (delim :: rest))
    rw [strtok, List.cons_append, List.dropWhile_cons_of_neg (by simpa using hc), ← List.cons_append, if_neg (by simp), hspan.1, hspan.2]
    rfl

def joinedFields (ss : List (List UInt8)) : List UInt8 := ss.flatMap fun s => s ++ [delim]

theorem joinedFields_cons (s : List UInt8) (ss : List (List UInt8)) : joinedFields (s :: ss) = s ++ delim :: joinedFields ss := by
  rw [joinedFields, List.flatMap_cons, List.append_assoc]
  rfl

/-- The maxima from column `i` on, raised to the lengths of fields. -/
def raised : List ℕ → ℕ → List (List UInt8) → List ℕ
  | max, _, [] => max
  | max, i, s :: ss => raised (max.set i (Nat.max (max.getD i 0) (utf8len s))) (i + 1) ss

theorem ptableAdd_run (hss : ∀ s ∈ ss, delim ∉ s) (hi : i = row.length) (hk : ss.length ≤ k) (hmax : max.length = i + k) :
    ∃ fuel ≤ (joinedFields ss).length + 1,
      Loop.run ptableAddRound fuel ⟨joinedFields ss, i, row ++ List.replicate k none, max⟩ =
        some (some (row ++ ((ss.filter (· ≠ [])).map some ++ List.replicate (k - (ss.filter (· ≠ [])).length) none),
          raised max i (ss.filter (· ≠ [])))) := by
  induction ss generalizing i row k max with
  | nil =>
    refine ⟨1, Nat.le_refl _, Loop.run_leave ?_ 0⟩
    rw [List.filter_nil, List.map_nil, List.nil_append]
    rfl
  | cons s ss ih =>
    obtain ⟨hs, hrest⟩ := List.forall_mem_cons.mp hss
    by_cases hne : s = []
    · -- An empty field is skipped on the way to the next one.
      subst hne
      obtain ⟨fuel, hfuel, hrun⟩ := ih hrest hi (Nat.le_of_succ_le hk) hmax
      obtain ⟨n, rfl⟩ : ∃ n, fuel = n + 1 := by
        cases fuel with
        | zero => cases hrun
        | succ n => exact ⟨n, rfl⟩
      refine ⟨n + 1, by rw [joinedFields_cons, List.nil_append, List.length_cons]; omega, ?_⟩
      have hround : ptableAddRound ⟨joinedFields ([] :: ss), i, row ++ List.replicate k none, max⟩ =
          ptableAddRound ⟨joinedFields ss, i, row ++ List.replicate k none, max⟩ := by
        rw [ptableAddRound, ptableAddRound, joinedFields_cons, List.nil_append, strtok_delim]
      rw [List.filter_cons_of_neg (by simp), ← hrun]
      rw [Loop.run, Loop.run, hround]
    · obtain ⟨k, rfl⟩ : ∃ n, k = n + 1 := ⟨k - 1, by rw [List.length_cons] at hk; omega⟩
      have hlt : i < max.length := by omega
      have hwrite : write (row ++ List.replicate (k + 1) none) i [some s] = some (row ++ [some s] ++ List.replicate k none) := by
        rw [List.append_assoc]
        exact @write_append _ row [none] (List.replicate k none) [some s] i hi rfl
      have hround : ptableAddRound ⟨joinedFields (s :: ss), i, row ++ List.replicate (k + 1) none, max⟩ =
          .inl ⟨joinedFields ss, i + 1, row ++ [some s] ++ List.replicate k none, max.set i (Nat.max (max.getD i 0) (utf8len s))⟩ := by
        rw [ptableAddRound, joinedFields_cons, strtok_append hne hs]
        simp only [hwrite, List.getElem?_eq_getElem hlt, List.getD_eq_getElem?_getD, Option.getD_some]
      obtain ⟨fuel, hfuel, hrun⟩ := @ih (row ++ [some s]) (i + 1) k (max.set i (Nat.max (max.getD i 0) (utf8len s))) hrest
        (by rw [List.length_append, List.length_singleton, hi]) (Nat.le_of_succ_le_succ hk) (by rw [List.length_set]; omega)
      refine ⟨fuel + 1, by rw [joinedFields_cons, List.length_append, List.length_cons]; omega, ?_⟩
      rw [Loop.run_again hround, hrun, List.filter_cons_of_pos (by simpa using hne), List.map_cons, List.length_cons, raised, List.append_assoc,
        Nat.add_sub_add_right]
      rfl

/-! ## Tables -/

variable {names : List (List UInt8)} {args : List (List UInt8)} {rows : List (List (List UInt8))} {t : Ptable} {n : ℕ}

/-- The format of `n` columns. -/
def rowFormat (n : ℕ) : List UInt8 := (List.replicate n [ch '%', ch 's', delim]).flatten

theorem formatted_char {c : UInt8} (h : c ≠ ch '%') (fmt : List UInt8) (args : List (List UInt8)) :
    formatted (c :: fmt) args = (formatted fmt args).map (c :: ·) := by
  rw [formatted.eq_def]
  exact if_neg h

theorem formatted_s (fmt s : List UInt8) (args : List (List UInt8)) :
    formatted (ch '%' :: ch 's' :: fmt) (s :: args) = (formatted fmt args).map (s ++ ·) := by
  rw [formatted.eq_def]
  dsimp only
  rw [if_pos rfl, if_pos rfl]

theorem formatted_row (args : List (List UInt8)) : formatted (rowFormat args.length) args = some (joinedFields args) := by
  induction args with
  | nil => rfl
  | cons s args ih =>
    have hfmt : rowFormat (s :: args).length = ch '%' :: ch 's' :: delim :: rowFormat args.length := rfl
    rw [hfmt, formatted_s, formatted_char (by decide), ih, Option.map_some, Option.map_some, joinedFields_cons]

theorem length_joinedFields (args : List (List UInt8)) : (joinedFields args).length = (args.map List.length).sum + args.length := by
  induction args with
  | nil => rfl
  | cons s args ih =>
    rw [joinedFields_cons, List.length_append, List.length_cons, ih, List.map_cons, List.sum_cons, List.length_cons]
    omega

/-- What is stored of a row: its fields that are not empty, and as many cells as are missing then. -/
def storedRow (n : ℕ) (row : List (List UInt8)) : PtableRow :=
  (row.filter (· ≠ [])).map some ++ List.replicate (n - (row.filter (· ≠ [])).length) none

theorem ptableAdd_eq (h : PtableArgs t.cols args) (hfmt : t.fmt = some (rowFormat t.cols)) (hmax : t.max.length = t.cols) :
    ∃ alloc, ptableAdd t args = some { t with
      alloc := alloc
      data := t.data ++ [storedRow t.cols args]
      max := raised t.max 0 (args.filter (· ≠ [])) } := by
  have hroom : (joinedFields args).length ≤ 512 - 1 := by
    rw [length_joinedFields, h.cols]
    have := h.room
    omega
  have hprint : vsnprintf 512 (rowFormat t.cols) args = some (joinedFields args) := by
    rw [vsnprintf, ← h.cols, formatted_row, Option.map_some, List.take_of_length_le hroom]
  obtain ⟨fuel, hfuel, hrun⟩ := @ptableAdd_run [] args 0 t.cols t.max (fun s hs => (h.plain s hs).2) rfl (Nat.le_of_eq h.cols) (by omega)
  rw [ptableAdd, hfmt]
  refine ⟨if t.data.length = t.alloc then t.alloc * 2 + 4 else t.alloc, ?_⟩
  change (vsnprintf 512 (rowFormat t.cols) args).bind _ = _
  rw [hprint, Option.bind_some]
  change (Loop.run ptableAddRound _ ⟨joinedFields args, 0, [] ++ List.replicate t.cols none, t.max⟩).join.bind _ = _
  rw [Loop.run_mono hfuel hrun]
  rfl

theorem length_raised (max : List ℕ) (i : ℕ) (ss : List (List UInt8)) : (raised max i ss).length = max.length := by
  induction ss generalizing max i with
  | nil => rfl
  | cons s ss ih => rw [raised, ih, List.length_set]

theorem ptableAdd_foldlM (h : ∀ row ∈ rows, PtableArgs t.cols row) (hfmt : t.fmt = some (rowFormat t.cols)) (hmax : t.max.length = t.cols) :
    ∃ alloc, rows.foldlM ptableAdd t = some { t with
      alloc := alloc
      data := t.data ++ rows.map (storedRow t.cols)
      max := rows.foldl (fun max row => raised max 0 (row.filter (· ≠ []))) t.max } := by
  induction rows generalizing t with
  | nil => exact ⟨t.alloc, by rw [List.map_nil, List.append_nil]; rfl⟩
  | cons row rows ih =>
    obtain ⟨hrow, hrows⟩ := List.forall_mem_cons.mp h
    obtain ⟨alloc, hadd⟩ := ptableAdd_eq hrow hfmt hmax
    obtain ⟨alloc', hfold⟩ := @ih { t with
      alloc := alloc
      data := t.data ++ [storedRow t.cols row]
      max := raised t.max 0 (row.filter (· ≠ [])) } hrows hfmt (by dsimp only; rw [length_raised, hmax])
    refine ⟨alloc', ?_⟩
    rw [List.foldlM_cons, hadd, Option.bind_eq_bind, Option.bind_some, hfold]
    simp only [List.map_cons, List.foldl_cons, List.append_assoc, List.singleton_append]

theorem storedRow_full (h : ∀ s ∈ args, s ≠ []) (hn : args.length = n) : storedRow n args = args.map some := by
  have hall : args.filter (· ≠ []) = args := List.filter_eq_self.mpr fun s hs => by simpa using h s hs
  rw [storedRow, hall, hn, Nat.sub_self, List.replicate_zero, List.append_nil]

theorem storedRow_short (h : [] ∈ args) (hn : args.length = n) : none ∈ storedRow n args := by
  have hlt : (args.filter (· ≠ [])).length < args.length :=
    List.length_filter_lt_length_iff_exists.mpr ⟨[], h, by simp⟩
  exact List.mem_append_right _ (List.mem_replicate.mpr ⟨by omega, rfl⟩)

theorem raised_append (a b : List ℕ) (h : b.length = ss.length) :
    raised (a ++ b) a.length ss = a ++ List.zipWith Nat.max b (ss.map utf8len) := by
  induction ss generalizing a b with
  | nil =>
    rw [List.length_eq_zero_iff.mp h]
    rfl
  | cons s ss ih =>
    obtain ⟨m, b, rfl⟩ := List.exists_cons_of_length_pos (by rw [h]; exact Nat.succ_pos _)
    have hnext := ih (a ++ [Nat.max m (utf8len s)]) b (Nat.succ.inj h)
    rw [List.length_append, List.length_singleton, List.append_assoc, List.append_assoc] at hnext
    rw [raised, List.set_append_right _ _ (Nat.le_refl _), List.getD_append_right _ _ _ _ (Nat.le_refl _), Nat.sub_self]
    exact hnext

theorem raised_zero (max : List ℕ) (h : max.length = ss.length) : raised max 0 ss = List.zipWith Nat.max max (ss.map utf8len) :=
  raised_append [] max h

theorem raised_foldl (h : ∀ row ∈ rows, row.length = n) (hmax : max.length = n) :
    rows.foldl (fun max row => raised max 0 row) max =
      (List.range n).map fun i => (rows.map fun row => utf8len (row.getD i [])).foldl Nat.max (max.getD i 0) := by
  induction rows generalizing max with
  | nil =>
    refine List.ext_getElem (by simp [hmax]) fun i hi _ => ?_
    rw [List.foldl_nil] at hi
    simp [List.getElem?_eq_getElem hi]
  | cons row rows ih =>
    obtain ⟨hrow, hrows⟩ := List.forall_mem_cons.mp h
    have hlen : max.length = row.length := hmax.trans hrow.symm
    rw [List.foldl_cons, raised_zero max hlen, ih hrows (by rw [List.length_zipWith, List.length_map, hlen, Nat.min_self, hrow])]
    refine List.map_congr_left fun i hi => ?_
    have hi' : i < n := List.mem_range.mp hi
    have hm : i < max.length := by rw [hmax]; exact hi'
    have hr : i < row.length := by rw [hrow]; exact hi'
    rw [List.map_cons, List.foldl_cons]
    congr 1
    simp [List.getElem?_zipWith, List.getElem?_eq_getElem hm, List.getElem?_eq_getElem hr]

theorem ptableInit_fmt (h : names ≠ []) :
    (ptableInit (names.map fun name => (name, [ch '%', ch 's']))).fmt = some (rowFormat names.length) := by
  have hne : names.map (fun name => (name, [ch '%', ch 's'])) ≠ [] := by simpa using h
  change (if _ then none else some _) = _
  rw [if_neg hne, List.flatMap_map, rowFormat, ← List.map_const', List.flatMap]
  rfl

theorem ptableOf_eq (h : ∀ row ∈ rows, PtableArgs names.length row) (hne : names ≠ []) :
    ∃ alloc, ptableOf names rows = some
      { ptableInit (names.map fun name => (name, [ch '%', ch 's'])) with
        cols := names.length
        alloc := alloc
        data := rows.map (storedRow names.length)
        max := rows.foldl (fun max row => raised max 0 (row.filter (· ≠ []))) (names.map utf8len) } := by
  have hcols : (ptableInit (names.map fun name => (name, [ch '%', ch 's']))).cols = names.length := List.length_map _
  have hmax : (ptableInit (names.map fun name => (name, [ch '%', ch 's']))).max = names.map utf8len := by
    change (names.map _).map _ = _
    rw [List.map_map]
    rfl
  obtain ⟨alloc, hfold⟩ := @ptableAdd_foldlM rows (ptableInit (names.map fun name => (name, [ch '%', ch 's'])))
    (by rw [hcols]; exact h) (by rw [ptableInit_fmt hne, hcols]) (by rw [hmax, hcols, List.length_map])
  rw [hmax, hcols] at hfold
  exact ⟨alloc, hfold⟩

theorem ptableOf_holds (h : ∀ row ∈ rows, PtableArgs names.length row) (hne : names ≠ []) (hs : ∀ row ∈ rows, ∀ s ∈ row, s ≠ []) :
    ∃ t, ptableOf names rows = some t ∧ t.Holds names rows := by
  -- rows without an empty string are held
  obtain ⟨alloc, ht⟩ := ptableOf_eq h hne
  refine ⟨_, ht, rfl, ?_, ?_, ?_⟩
  · change (names.map _).map _ = _
    rw [List.map_map]
    exact List.map_id _
  · exact List.map_congr_left fun row hrow => storedRow_full (hs row hrow) (h row hrow).cols
  · have hall : ∀ (max : List ℕ), ∀ row ∈ rows, raised max 0 (row.filter (· ≠ [])) = raised max 0 row := by
      intro max row hrow
      rw [List.filter_eq_self.mpr fun s hs' => by simpa using hs row hrow s hs']
    dsimp only
    rw [List.foldl_ext _ _ _ hall, raised_foldl (fun row hrow => (h row hrow).cols) (List.length_map _)]
    refine List.map_congr_left fun i hi => ?_
    have hi' : i < names.length := List.mem_range.mp hi
    rw [columnMax, List.getD_eq_getElem _ _ (by rw [List.length_map]; exact hi'), List.getElem_map, List.getD_eq_getElem _ _ hi']

/-- A table has every string of its rows in its place, and the length of the longest one of each column, exactly if no string is empty: an
empty one is skipped with its delimiter. (Without a column there is no format to print a row with.) -/
theorem ptableOf_holds_iff (names : List (List UInt8)) (rows : List (List (List UInt8)))
    (h : ∀ row ∈ rows, PtableArgs names.length row) :
    (∃ t, ptableOf names rows = some t ∧ t.Holds names rows) ↔ (names = [] → rows = []) ∧ ∀ row ∈ rows, ∀ s ∈ row, s ≠ [] := by
  by_cases hne : names = []
  · subst hne
    cases rows with
    | nil =>
      refine ⟨fun _ => ⟨fun _ => rfl, fun row hrow => absurd hrow List.not_mem_nil⟩, fun _ => ?_⟩
      exact ⟨ptableInit [], rfl, rfl, rfl, rfl, rfl⟩
    | cons row rows =>
      refine iff_of_false (fun hholds => ?_) (fun hcond => nomatch hcond.1 rfl)
      obtain ⟨t, ht, _⟩ := hholds
      cases ht
  · refine ⟨fun hholds => ⟨fun hnil => absurd hnil hne, fun row hrow s hs hnil => ?_⟩, fun hcond => ptableOf_holds h hne hcond.2⟩
    -- The row of an empty string would have to be set up to its last cell.
    obtain ⟨t, ht, hholds⟩ := hholds
    obtain ⟨alloc, heq⟩ := ptableOf_eq h hne
    obtain rfl := Option.some.inj (heq.symm.trans ht)
    have hrows : rows.map (storedRow names.length) = rows.map (·.map some) := hholds.data
    have hstored : storedRow names.length row = row.map some := List.map_inj_left.mp hrows row hrow
    have hnone := storedRow_short (hnil ▸ hs) (h row hrow).cols
    rw [hstored, List.mem_map] at hnone
    obtain ⟨_, _, hsome⟩ := hnone
    cases hsome

theorem ptableOf_holds_iff_pair :
    ∃ t, ptableOf [[ch 'a'], [ch 'b']] [[[ch 'x', ch 'y'], [ch 'z']]] = some t ∧
      t.Holds [[ch 'a'], [ch 'b']] [[[ch 'x', ch 'y'], [ch 'z']]] := by
  have hargs : PtableArgs 2 [[ch 'x', ch 'y'], [ch 'z']] := ⟨rfl, by decide, by decide⟩
  exact (ptableOf_holds_iff [[ch 'a'], [ch 'b']] [[[ch 'x', ch 'y'], [ch 'z']]] (List.forall_mem_singleton.mpr hargs)).mpr
    ⟨by decide, by decide⟩

/-- The string after an empty one is in its place, and nothing in its own. -/
theorem ptableOf_shifted :
    PtableArgs 2 [[], [ch 'x']] ∧ ¬∃ t, ptableOf [[ch 'a'], [ch 'b']] [[[], [ch 'x']]] = some t ∧
      t.Holds [[ch 'a'], [ch 'b']] [[[], [ch 'x']]] := by
  refine ⟨⟨rfl, by decide, by decide⟩, fun hholds => ?_⟩
  obtain ⟨t, ht, hholds⟩ := hholds
  have hdata : (ptableOf [[ch 'a'], [ch 'b']] [[[], [ch 'x']]]).map Ptable.data = some [[some ([ch 'x']), none]] := by
    decide
  rw [ht] at hdata
  have hcells := hholds.data.symm.trans (Option.some.inj hdata)
  revert hcells
  decide

end Yjc.Base
