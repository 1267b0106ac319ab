import Yjc.Base.PtableRow

/-! `ptable_print`, in `base/ptable.c`: the columns are trimmed until a line fits, then the rows are printed between rules. -/

namespace Yjc.Base
open CLib

def quotient (a b : ℕ) : Option ℕ := if b = 0 then none else some (a / b)

/-- The rule above the table, under its headers or below it. -/
def rule (corner : UInt8) (width : ℕ) : Option (List UInt8) :=
  (minus width 2).map fun n => [corner] ++ List.replicate n (ch '-') ++ [corner, ch '\n']

def separator (max : List ℕ) : List UInt8 :=
  [ch '|'] ++ max.flatMap (fun w => List.replicate (w + 2) (ch '-') ++ [ch '|']) ++ [ch '\n']

def printRows (fuel : ℕ) (max : List ℕ) : List PtableRow → Option (List UInt8)
  | [] => some []
  | row :: rows => do
    let lines ← printRow fuel row max
    let rest ← printRows fuel max rows
    return lines ++ (if rows = [] then [] else separator max) ++ rest

/-- What `ptable_print` does once the columns are trimmed. -/
def printTable (fuel : ℕ) (t : Ptable) (max : List ℕ) (width : ℕ) : Option (List UInt8) := do
  let top ← rule (ch '+') width
  let header ← printRow fuel (t.headers.map some) max
  let middle ← rule (ch '*') width
  let body ← printRows fuel max t.data
  return top ++ header ++ middle ++ body ++ top

/-- `ptable_print` to a terminal of `n` columns: what it returns and what it prints. -/
def ptablePrint (fuel : ℕ) (t : Ptable) (n : ℕ) : Option (Bool × List UInt8) :=
  if n < t.cols * 3 + 4 then some (false, [])
  else do
    let avg ← quotient (n - 2) t.cols
    let (max, width) ← (Loop.run (trimRound (n - 2) avg) fuel ⟨t.max, t.cols * 3 + 1 + t.max.sum, 0⟩).join
    let out ← printTable fuel t max width
    return (true, out)

/-! ## What is printed -/

/-- A table of strings of printable characters, none of them empty, with at least one column. -/
structure PtableText (names : List (List UInt8)) (rows : List (List (List UInt8))) : Prop where
  columns : names ≠ []
  cols : ∀ row ∈ rows, row.length = names.length
  text : ∀ s ∈ names ++ rows.flatten, s ≠ [] ∧ ∀ c ∈ s, printable c

theorem text_of_all {l : List (List UInt8)} (h : l.all (fun s => !s.isEmpty && s.all printable) = true) :
    ∀ s ∈ l, s ≠ [] ∧ ∀ c ∈ s, printable c := by
  simpa using h

def Lined (width : ℕ) (out : List UInt8) : Prop :=
  ∃ lines : List (List UInt8), (∀ line ∈ lines, line.length = width ∧ ch '\n' ∉ line) ∧ out = lines.flatMap (· ++ [ch '\n'])

/-- The text of a table: its rules, and between them lines whose pieces spell the headers and the rows. -/
def tableText (ws : List ℕ) (header : List (List PtablePiece)) (body : List (List (List PtablePiece))) : List UInt8 :=
  let border (corner : UInt8) := [corner] ++ List.replicate (lineWidth ws - 2) (ch '-') ++ [corner, ch '\n']
  border (ch '+') ++ gridText ws header ++ border (ch '*') ++ (separator ws).intercalate (body.map (gridText ws)) ++ border (ch '+')

structure PtablePrinted (names : List (List UInt8)) (rows : List (List (List UInt8))) (n : ℕ) (out : List UInt8) : Prop where
  lines : ∃ width ≤ n - 2, Lined width out
  cells : ∃ ws header body, out = tableText ws header body ∧ Spells header names ∧ List.Forall₂ Spells body rows

def PtablePrints (t : Ptable) (names : List (List UInt8)) (rows : List (List (List UInt8))) (n : ℕ) : Prop :=
  ∃ fuel ok out, ptablePrint fuel t n = some (ok, out) ∧ (ok = false ↔ n < names.length * 3 + 4) ∧
    (ok = true → PtablePrinted names rows n out)

/-! ## Lines -/

variable {names cells : List (List UInt8)} {rows : List (List (List UInt8))} {t : Ptable} {n width fuel : ℕ} {m ws : List ℕ}
  {s out out' : List UInt8} {header grid : List (List PtablePiece)} {body : List (List (List PtablePiece))}

theorem lined_nil (width : ℕ) : Lined width [] := ⟨[], fun _ hline => absurd hline List.not_mem_nil, rfl⟩

theorem Lined.append (h : Lined width out) (h' : Lined width out') : Lined width (out ++ out') := by
  obtain ⟨lines, hlines, rfl⟩ := h
  obtain ⟨lines', hlines', rfl⟩ := h'
  refine ⟨lines ++ lines', fun line hline => ?_, List.flatMap_append.symm⟩
  exact (List.mem_append.mp hline).elim (hlines line) (hlines' line)

theorem lined_singleton {line : List UInt8} (hlen : line.length = width) (hline : ch '\n' ∉ line) : Lined width (line ++ [ch '\n']) :=
  ⟨[line], List.forall_mem_singleton.mpr ⟨hlen, hline⟩, (List.flatMap_singleton _ _).symm⟩

theorem lined_border {corner : UInt8} (hcorner : corner ≠ ch '\n') (hwidth : 2 ≤ width) :
    Lined width ([corner] ++ List.replicate (width - 2) (ch '-') ++ [corner, ch '\n']) := by
  have hline : ch '\n' ∉ [corner] ++ List.replicate (width - 2) (ch '-') ++ [corner] := by
    simp only [List.mem_append, List.mem_singleton, List.mem_replicate, not_or, not_and]
    exact ⟨⟨Ne.symm hcorner, fun _ => by decide⟩, Ne.symm hcorner⟩
  have hlen : ([corner] ++ List.replicate (width - 2) (ch '-') ++ [corner]).length = width := by
    simp only [List.length_append, List.length_singleton, List.length_replicate]
    omega
  have hlined := lined_singleton hlen hline
  rw [List.append_assoc _ [corner]] at hlined
  exact hlined

theorem lined_separator (ws : List ℕ) : Lined (lineWidth ws) (separator ws) := by
  refine lined_singleton ?_ ?_
  · have hlen : (ws.flatMap fun w => List.replicate (w + 2) (ch '-') ++ [ch '|']).length = ws.length * 3 + ws.sum := by
      induction ws with
      | nil => rfl
      | cons w ws ih =>
        rw [List.flatMap_cons, List.length_append, ih, List.length_append, List.length_replicate, List.length_singleton, List.length_cons,
          List.sum_cons]
        omega
    rw [List.length_append, hlen, List.length_singleton, lineWidth]
    omega
  · simp only [List.mem_append, List.mem_singleton, List.mem_flatMap, List.mem_replicate, not_or, not_exists, not_and]
    exact ⟨by decide, fun w _ => ⟨fun _ => by decide, by decide⟩⟩

theorem lined_gridText (h : ∀ line ∈ grid, List.Forall₂ PieceFits ws line) : Lined (lineWidth ws) (gridText ws grid) := by
  refine ⟨grid.map (lineText ws), fun line hline => ?_, by rw [gridText, List.flatMap_map]⟩
  obtain ⟨pieces, hpieces, rfl⟩ := List.mem_map.mp hline
  exact lineText_fits (h pieces hpieces)

theorem intercalate_cons (ws : List ℕ) (grid : List (List PtablePiece)) (body : List (List (List PtablePiece))) :
    (separator ws).intercalate ((grid :: body).map (gridText ws)) =
      gridText ws grid ++ (if body = [] then [] else separator ws) ++ (separator ws).intercalate (body.map (gridText ws)) := by
  cases body with
  | nil =>
    rw [if_pos rfl, List.append_nil]
    rfl
  | cons grid' body =>
    rw [if_neg (List.cons_ne_nil _ _), List.map_cons, List.map_cons, List.intercalate, List.intersperse_cons_cons, List.flatten_cons,
      List.flatten_cons, List.append_assoc]
    rfl

theorem lined_intercalate (h : ∀ grid ∈ body, ∀ line ∈ grid, List.Forall₂ PieceFits ws line) :
    Lined (lineWidth ws) ((separator ws).intercalate (body.map (gridText ws))) := by
  induction body with
  | nil => exact lined_nil _
  | cons grid body ih =>
    obtain ⟨hgrid, hbody⟩ := List.forall_mem_cons.mp h
    rw [intercalate_cons]
    refine ((lined_gridText hgrid).append ?_).append (ih hbody)
    split
    · exact lined_nil _
    · exact lined_separator ws

theorem two_le_lineWidth (hne : ws ≠ []) : 2 ≤ lineWidth ws := by
  have := List.length_pos_of_ne_nil hne
  rw [lineWidth]
  omega

theorem lined_tableText (hne : ws ≠ []) (hheader : ∀ line ∈ header, List.Forall₂ PieceFits ws line)
    (hbody : ∀ grid ∈ body, ∀ line ∈ grid, List.Forall₂ PieceFits ws line) : Lined (lineWidth ws) (tableText ws header body) :=
  have hwidth := two_le_lineWidth hne
  ((((lined_border (by decide) hwidth).append (lined_gridText hheader)).append (lined_border (by decide) hwidth)).append
    (lined_intercalate hbody)).append (lined_border (by decide) hwidth)

/-! ## The rows of a table -/

theorem mapM_some (cells : List (List UInt8)) : (cells.map some).mapM id = some cells := by
  induction cells with
  | nil => rfl
  | cons s cells ih =>
    rw [List.map_cons, List.mapM_cons, ih]
    rfl

theorem printRow_eq (h : ∀ s ∈ cells, ∀ c ∈ s, printable c) (fuel : ℕ) (ws : List ℕ) :
    printRow fuel (cells.map some) ws = (Loop.run (printRowRound ws) fuel ⟨cellsOf cells, []⟩).join := by
  have hcells : (cells.map fun s => (⟨s, utf8len s⟩ : PtableCell)) = cellsOf cells :=
    List.map_congr_left fun s hs => by rw [utf8len_printable (h s hs)]
  rw [printRow, mapM_some, Option.bind_eq_bind, Option.bind_some, hcells]

theorem Columns.printable (h : Columns ws cells) : ∀ s ∈ cells, ∀ c ∈ s, printable c := by
  induction h with
  | nil => exact fun s hs => absurd hs List.not_mem_nil
  | cons hcell _ ih => exact List.forall_mem_cons.mpr ⟨hcell.2, ih⟩

theorem printRow_spells (h : Columns ws cells) (hflow : Flows ws cells) (hne : ws ≠ []) :
    ∃ fuel grid, (∀ k ≥ fuel, printRow k (cells.map some) ws = some (gridText ws grid)) ∧ Spells grid cells ∧
      ∀ line ∈ grid, List.Forall₂ PieceFits ws line := by
  obtain ⟨fuel, grid, hrun, hspells, hfits⟩ := rowLoop_run h hflow hne []
  refine ⟨fuel, grid, fun k hk => ?_, hspells, hfits⟩
  rw [printRow_eq h.printable, Loop.run_mono hk hrun]
  rfl

theorem printRows_spells (h : ∀ row ∈ rows, Columns ws row ∧ Flows ws row) (hne : ws ≠ []) :
    ∃ fuel body, (∀ k ≥ fuel, printRows k ws (rows.map (·.map some)) = some ((separator ws).intercalate (body.map (gridText ws)))) ∧
      List.Forall₂ Spells body rows ∧ ∀ grid ∈ body, ∀ line ∈ grid, List.Forall₂ PieceFits ws line := by
  induction rows with
  | nil => exact ⟨0, [], fun k _ => rfl, .nil, fun grid hgrid => absurd hgrid List.not_mem_nil⟩
  | cons row rows ih =>
    obtain ⟨⟨hcolumns, hflow⟩, hrest⟩ := List.forall_mem_cons.mp h
    obtain ⟨fuel, grid, hrow, hspells, hfits⟩ := printRow_spells hcolumns hflow hne
    obtain ⟨fuel', body, hrows, hspells', hfits'⟩ := ih hrest
    refine ⟨max fuel fuel', grid :: body, fun k hk => ?_, .cons hspells hspells', List.forall_mem_cons.mpr ⟨hfits, hfits'⟩⟩
    rw [List.map_cons, printRows, hrow k (Nat.le_trans (Nat.le_max_left ..) hk), hrows k (Nat.le_trans (Nat.le_max_right ..) hk)]
    have hempty : rows.map (·.map some) = [] ↔ body = [] := by
      rw [List.map_eq_nil_iff, ← List.length_eq_zero_iff, ← hspells'.length_eq, List.length_eq_zero_iff]
    rw [intercalate_cons, ← if_congr hempty rfl rfl]
    rfl

theorem printRows_none {row : PtableRow} {data : List PtableRow} (hrow : row ∈ data) (hnone : printRow fuel row ws = none) :
    printRows fuel ws data = none := by
  induction data with
  | nil => exact absurd hrow List.not_mem_nil
  | cons row' data ih =>
    rw [printRows]
    obtain rfl | hrow := List.mem_cons.mp hrow
    · rw [hnone]
      rfl
    · rw [ih hrow]
      cases printRow fuel row' ws with
      | none => rfl
      | some _ => rfl

/-! ## The widths of the columns -/

/-- The strings of a row are no longer than their columns were before they were trimmed. -/
def RowOf (m : List ℕ) (cells : List (List UInt8)) : Prop :=
  List.Forall₂ (fun m s => s.length ≤ m ∧ s ≠ [] ∧ ∀ c ∈ s, printable c) m cells

theorem oddSpaces_short (h : s.length ≤ 1) : oddSpaces s := by
  match s with
  | [] => rfl
  | [_] => rfl
  | _ :: _ :: _ => exact absurd (Nat.le_of_succ_le_succ h) (Nat.not_succ_le_zero _)

theorem RowOf.flows_of_two (h : RowOf m cells) (habove : AboveLevel 2 m ws) : Columns ws cells ∧ Flows ws cells := by
  induction habove generalizing cells with
  | nil =>
    cases h
    exact ⟨.nil, .nil⟩
  | cons hw _ ih =>
    cases h with
    | cons hs hrest =>
      obtain ⟨hlen, hne, hprintable⟩ := hs
      have hpos := List.length_pos_of_ne_nil hne
      obtain ⟨hcolumns, hflows⟩ := ih hrest
      refine ⟨.cons ⟨by omega, hprintable⟩ hcolumns, .cons ?_ hflows⟩
      rw [or_iff_not_imp_left]
      exact fun h2 => oddSpaces_short (by omega)

theorem RowOf.columns_of_one (h : RowOf m cells) (hlen : ws.length = m.length) (hone : ∀ w ∈ ws, w = 1) : Columns ws cells := by
  induction h generalizing ws with
  | nil =>
    rw [List.length_eq_zero_iff.mp hlen]
    exact .nil
  | cons hs _ ih =>
    obtain ⟨w, ws, rfl⟩ := List.exists_cons_of_length_pos (by rw [hlen]; exact Nat.succ_pos _)
    obtain ⟨rfl, hrest⟩ := List.forall_mem_cons.mp hone
    exact .cons ⟨Nat.one_pos, hs.2.2⟩ (ih (Nat.succ.inj hlen) hrest)

theorem flows_of_odd (hlen : ws.length = cells.length) (hodd : ∀ s ∈ cells, oddSpaces s) : Flows ws cells :=
  List.forall₂_iff_get.mpr ⟨hlen, fun _ _ hi => .inr (hodd _ (List.getElem_mem hi))⟩

theorem le_foldl_max (l : List ℕ) (a : ℕ) : a ≤ l.foldl Nat.max a ∧ ∀ b ∈ l, b ≤ l.foldl Nat.max a := by
  induction l generalizing a with
  | nil => exact ⟨Nat.le_refl a, fun b hb => absurd hb List.not_mem_nil⟩
  | cons b l ih =>
    obtain ⟨hle, hall⟩ := ih (Nat.max a b)
    exact ⟨Nat.le_trans (Nat.le_max_left a b) hle, List.forall_mem_cons.mpr ⟨Nat.le_trans (Nat.le_max_right a b) hle, hall⟩⟩

theorem mem_strings : s ∈ names ++ rows.flatten ↔ ∃ cells, (cells = names ∨ cells ∈ rows) ∧ s ∈ cells := by
  rw [List.mem_append, List.mem_flatten]
  constructor
  · intro hs
    obtain hname | ⟨row, hrow, hmem⟩ := hs
    · exact ⟨names, .inl rfl, hname⟩
    · exact ⟨row, .inr hrow, hmem⟩
  · intro hs
    obtain ⟨cells, rfl | hrow, hmem⟩ := hs
    · exact .inl hmem
    · exact .inr ⟨cells, hrow, hmem⟩

theorem PtableText.rowOf (h : PtableText names rows) (ht : t.Holds names rows) (hcells : cells = names ∨ cells ∈ rows) :
    RowOf t.max cells := by
  have hlen : cells.length = names.length := by
    obtain rfl | hrow := hcells
    · rfl
    · exact h.cols cells hrow
  have htext : ∀ s ∈ cells, s ≠ [] ∧ ∀ c ∈ s, printable c := fun s hs => h.text s (mem_strings.mpr ⟨cells, hcells, hs⟩)
  rw [ht.max]
  refine List.forall₂_iff_get.mpr ⟨by rw [List.length_map, List.length_range, hlen], fun i hi hi' => ⟨?_, htext _ (List.getElem_mem hi')⟩⟩
  have hlen' : utf8len (cells.getD i []) = cells[i].length := by
    rw [List.getD_eq_getElem _ _ hi', utf8len_printable (htext _ (List.getElem_mem hi')).2]
  obtain ⟨hname, hrows⟩ := le_foldl_max (rows.map fun row => utf8len (row.getD i [])) (utf8len (names.getD i []))
  simp only [List.get_eq_getElem, List.getElem_map, List.getElem_range, columnMax]
  rw [← hlen']
  obtain rfl | hrow := hcells
  · exact hname
  · exact hrows _ (List.mem_map_of_mem hrow)

theorem Ptable.Holds.length_max (ht : t.Holds names rows) : t.max.length = names.length := by
  rw [ht.max, List.length_map, List.length_range]

theorem PtableText.max_pos (h : PtableText names rows) (ht : t.Holds names rows) : ∀ m ∈ t.max, 0 < m := by
  intro m hm
  obtain ⟨i, hi, rfl⟩ := List.getElem_of_mem hm
  have hcell := (List.forall₂_iff_get.mp (h.rowOf ht (.inl rfl))).2 i hi (ht.length_max ▸ hi)
  exact Nat.lt_of_lt_of_le (List.length_pos_of_ne_nil hcell.2.1) hcell.1

/-! ## Printing -/

theorem printTable_printed (h : PtableText names rows) (ht : t.Holds names rows) (hws : lineWidth ws ≤ n - 2)
    (hlen : ws.length = t.max.length)
    (hflow : ∀ cells, cells = names ∨ cells ∈ rows → Columns ws cells ∧ Flows ws cells) :
    ∃ fuel out, (∀ k ≥ fuel, printTable k t ws (lineWidth ws) = some out) ∧ PtablePrinted names rows n out := by
  have hne : ws ≠ [] := by
    refine List.ne_nil_of_length_pos ?_
    rw [hlen, ht.length_max]
    exact List.length_pos_of_ne_nil h.columns
  obtain ⟨hcolumns, hflows⟩ := hflow names (.inl rfl)
  obtain ⟨fuel, header, hheader, hspells, hfits⟩ := printRow_spells hcolumns hflows hne
  obtain ⟨fuel', body, hbody, hspells', hfits'⟩ := printRows_spells (fun row hrow => hflow row (.inr hrow)) hne
  refine ⟨max fuel fuel', tableText ws header body, fun k hk => ?_, ⟨⟨_, hws, lined_tableText hne hfits hfits'⟩, ws, header, body, rfl,
    hspells, hspells'⟩⟩
  have hrule : ∀ corner, rule corner (lineWidth ws) =
      some ([corner] ++ List.replicate (lineWidth ws - 2) (ch '-') ++ [corner, ch '\n']) := by
    intro corner
    rw [rule, minus, if_pos (two_le_lineWidth hne), Option.map_some]
  rw [printTable, hrule, hrule, ht.headers, ht.data, hheader k (Nat.le_trans (Nat.le_max_left ..) hk),
    hbody k (Nat.le_trans (Nat.le_max_right ..) hk)]
  rfl

theorem ptablePrint_of_room (ht : t.Holds names rows) (hne : names ≠ []) (hn : ¬n < names.length * 3 + 4) (fuel : ℕ) :
    ptablePrint fuel t n =
      (Loop.run (trimRound (n - 2) ((n - 2) / t.max.length)) fuel ⟨t.max, lineWidth t.max, 0⟩).join.bind
        fun r => (printTable fuel t r.1 r.2).map fun out => (true, out) := by
  have hlen : t.max.length = t.cols := by rw [ht.length_max, ht.cols]
  have hcols : t.cols ≠ 0 := by rw [ht.cols]; exact mt List.length_eq_zero_iff.mp hne
  rw [ptablePrint, ht.cols, if_neg hn, ← ht.cols, quotient, if_neg hcols, lineWidth, hlen]
  simp only [Option.bind_eq_bind, Option.bind_some]
  cases (Loop.run (trimRound (n - 2) ((n - 2) / t.cols)) fuel ⟨t.max, t.cols * 3 + 1 + t.max.sum, 0⟩).join with
  | none => rfl
  | some r =>
    obtain ⟨max, width⟩ := r
    exact (Option.map_eq_bind ..).symm

theorem ptablePrint_eq_none (ht : t.Holds names rows) (hne : names ≠ []) (hn : ¬n < names.length * 3 + 4)
    (hrun : ∃ fuel, Loop.run (trimRound (n - 2) ((n - 2) / t.max.length)) fuel ⟨t.max, lineWidth t.max, 0⟩ = some (some (ws, width)))
    (hnone : ∀ fuel, printTable fuel t ws width = none) (fuel : ℕ) : ptablePrint fuel t n = none := by
  -- whatever the fuel, only the widths the loop ends with are printed with
  rw [ptablePrint_of_room ht hne hn]
  cases hfuel : Loop.run (trimRound (n - 2) ((n - 2) / t.max.length)) fuel ⟨t.max, lineWidth t.max, 0⟩ with
  | none => rfl
  | some r =>
    obtain ⟨fuel', hrun⟩ := hrun
    have hr := (Loop.run_mono (Nat.le_max_left fuel fuel') hfuel).symm.trans (Loop.run_mono (Nat.le_max_right fuel fuel') hrun)
    rw [Option.some.inj hr]
    change (printTable fuel t ws width).map _ = none
    rw [hnone]
    rfl

theorem printTable_eq_none (ht : t.Holds names rows) (hcells : cells = names ∨ cells ∈ rows)
    (hnone : printRow fuel (cells.map some) ws = none) :
    printTable fuel t ws width = none := by
  rw [printTable, ht.headers, ht.data]
  cases rule (ch '+') width with
  | none => rfl
  | some top =>
    cases hheader : printRow fuel (names.map some) ws with
    | none => rfl
    | some header =>
      obtain rfl | hrow := hcells
      · rw [hnone] at hheader
        cases hheader
      · rw [printRows_none (List.mem_map_of_mem hrow) hnone]
        cases rule (ch '*') width with
        | none => rfl
        | some _ => rfl

theorem printRow_zero (hlen : ws.length = cells.length) (hcells : ∀ s ∈ cells, s ≠ [] ∧ ∀ c ∈ s, printable c) (hzero : 0 ∈ ws) (fuel : ℕ) :
    printRow fuel (cells.map some) ws = none := by
  rw [printRow_eq fun s hs => (hcells s hs).2]
  cases fuel with
  | zero => rfl
  | succ fuel =>
    have hround : printRowRound ws ⟨cellsOf cells, []⟩ = .inr none := by
      rw [printRowRound, printLine_zero hlen hcells hzero]
    rw [Loop.run_leave hround]
    rfl

theorem printRow_stuck (h : Columns ws cells) (hne : ws ≠ []) (hone : ∀ w ∈ ws, w = 1) (hstuck : ∃ s ∈ cells, ¬oddSpaces s) (fuel : ℕ) :
    printRow fuel (cells.map some) ws = none := by
  rw [printRow_eq h.printable, rowLoop_stuck h hone hstuck hne]
  rfl

theorem ptablePrints_of_flows (h : PtableText names rows) (ht : t.Holds names rows) (hn : ¬n < names.length * 3 + 4)
    (hrun : ∃ fuel, Loop.run (trimRound (n - 2) ((n - 2) / t.max.length)) fuel ⟨t.max, lineWidth t.max, 0⟩ = some (some (ws, lineWidth ws)))
    (hws : lineWidth ws ≤ n - 2) (hlen : ws.length = t.max.length)
    (hflow : ∀ cells, cells = names ∨ cells ∈ rows → Columns ws cells ∧ Flows ws cells) : PtablePrints t names rows n := by
  obtain ⟨fuel, hrun⟩ := hrun
  obtain ⟨fuel', out, hprint, hprinted⟩ := printTable_printed h ht hws hlen hflow
  refine ⟨max fuel fuel', true, out, ?_, iff_of_false (fun hok => nomatch hok) hn, fun _ => hprinted⟩
  rw [ptablePrint_of_room ht h.columns hn, Loop.run_mono (Nat.le_max_left ..) hrun]
  change (printTable (max fuel fuel') t ws (lineWidth ws)).map _ = _
  rw [hprint _ (Nat.le_max_right ..), Option.map_some]

theorem not_ptablePrints (hnone : ∀ fuel, ptablePrint fuel t n = none) : ¬PtablePrints t names rows n := by
  intro hprints
  obtain ⟨fuel, ok, out, hprint, _⟩ := hprints
  rw [hnone] at hprint
  cases hprint

theorem ptablePrints_iff_odd (h : PtableText names rows) (ht : t.Holds names rows) (hn : ¬n < names.length * 3 + 4)
    (hrun : ∃ fuel, Loop.run (trimRound (n - 2) ((n - 2) / t.max.length)) fuel ⟨t.max, lineWidth t.max, 0⟩ = some (some (ws, lineWidth ws)))
    (hws : lineWidth ws ≤ n - 2) (hlen : ws.length = t.max.length) (hones : ∀ w ∈ ws, w = 1) :
    PtablePrints t names rows n ↔ ∀ s ∈ names ++ rows.flatten, oddSpaces s := by
  -- in columns of one character only strings with a blank after each character come to an end
  have hcolumns : ∀ cells, cells = names ∨ cells ∈ rows → Columns ws cells := fun cells hcells =>
    (h.rowOf ht hcells).columns_of_one hlen hones
  have hwne : ws ≠ [] := by
    refine List.ne_nil_of_length_pos ?_
    rw [hlen, ht.length_max]
    exact List.length_pos_of_ne_nil h.columns
  constructor
  · intro hprints
    by_contra hodd
    obtain ⟨s, hs, hstuck⟩ := not_forall₂.mp hodd
    obtain ⟨cells, hcells, hmem⟩ := mem_strings.mp hs
    exact not_ptablePrints (ptablePrint_eq_none ht h.columns hn hrun fun k => printTable_eq_none ht hcells
      (printRow_stuck (hcolumns cells hcells) hwne hones ⟨s, hmem, hstuck⟩ k)) hprints
  · intro hodd
    refine ptablePrints_of_flows h ht hn hrun hws hlen fun cells hcells => ⟨hcolumns cells hcells, ?_⟩
    exact flows_of_odd (hcolumns cells hcells).length_eq fun s hs => hodd s (mem_strings.mpr ⟨cells, hcells, hs⟩)

/-- `ptable_print` does what it should exactly if there is no room for three characters a column and the borders, or every column can keep a
character, and two of them or every string is spaced out. With a column of no width a byte before a string is read, and with one of one
character a word gets stuck, with a hyphen on each line. -/
theorem ptablePrint_iff (t : Ptable) (names : List (List UInt8)) (rows : List (List (List UInt8))) (n : ℕ) (h : PtableText names rows)
    (ht : t.Holds names rows) :
    PtablePrints t names rows n ↔ n < names.length * 3 + 4 ∨
      names.length * 4 + 1 ≤ n - 2 ∧ (lineWidth (t.max.map (min · 2)) ≤ n - 2 ∨ ∀ s ∈ names ++ rows.flatten, oddSpaces s) := by
  by_cases hn : n < names.length * 3 + 4
  · refine iff_of_true ⟨0, false, [], ?_, iff_of_true rfl hn, fun hok => nomatch hok⟩ (.inl hn)
    rw [ptablePrint, ht.cols, if_pos hn]
  · have hmlen := ht.length_max
    have hmne : t.max ≠ [] := List.ne_nil_of_length_pos (hmlen ▸ List.length_pos_of_ne_nil h.columns)
    obtain ⟨fuel, ws, hrun, hws⟩ := trimRound_run hmne (by omega : t.max.length * 3 + 2 ≤ n - 2)
    rw [or_iff_right hn, ← hmlen]
    by_cases hone : t.max.length * 4 + 1 ≤ n - 2
    · rw [and_iff_right hone]
      by_cases htwo : lineWidth (t.max.map (min · 2)) ≤ n - 2
      · exact iff_of_true (ptablePrints_of_flows h ht hn ⟨fuel, hrun⟩ hws.fits hws.length_eq fun cells hcells =>
          (h.rowOf ht hcells).flows_of_two (hws.two_le htwo)) (.inl htwo)
      · rw [or_iff_right htwo]
        exact ptablePrints_iff_odd h ht hn ⟨fuel, hrun⟩ hws.fits hws.length_eq (hws.eq_one (h.max_pos ht) (Nat.lt_of_not_le htwo) hone)
    · refine iff_of_false ?_ fun hcond => hone hcond.1
      have hzero : 0 ∈ ws := hws.exists_zero (Nat.lt_of_not_le hone)
      exact not_ptablePrints (ptablePrint_eq_none ht h.columns hn ⟨fuel, hrun⟩ fun k => printTable_eq_none ht (.inl rfl)
        (printRow_zero (hws.length_eq.trans hmlen) (fun s hs => h.text s (List.mem_append_left _ hs)) hzero k))

theorem ptablePrint_iff_room :
    PtablePrints ⟨2, 4, [2, 1], [[some [ch 'x', ch 'y'], some [ch 'z']]], [[ch 'a'], [ch 'b']], some (rowFormat 2)⟩ [[ch 'a'], [ch 'b']]
      [[[ch 'x', ch 'y'], [ch 'z']]] 12 :=
  (ptablePrint_iff ⟨2, 4, [2, 1], [[some [ch 'x', ch 'y'], some [ch 'z']]], [[ch 'a'], [ch 'b']], some (rowFormat 2)⟩ [[ch 'a'], [ch 'b']]
    [[[ch 'x', ch 'y'], [ch 'z']]] 12 ⟨by decide, by decide, text_of_all rfl⟩ ⟨rfl, rfl, rfl, by decide⟩).mpr (by decide)

/-- In a column of one character the header `ab` is never finished. -/
theorem ptablePrint_stuck :
    PtableText [[ch 'a', ch 'b']] [] ∧ Ptable.Holds ⟨1, 0, [2], [], [[ch 'a', ch 'b']], some (rowFormat 1)⟩ [[ch 'a', ch 'b']] [] ∧
      ¬PtablePrints ⟨1, 0, [2], [], [[ch 'a', ch 'b']], some (rowFormat 1)⟩ [[ch 'a', ch 'b']] [] 7 := by
  have ht : Ptable.Holds ⟨1, 0, [2], [], [[ch 'a', ch 'b']], some (rowFormat 1)⟩ [[ch 'a', ch 'b']] [] := ⟨rfl, rfl, rfl, by decide⟩
  have hcolumns : Columns [1] [[ch 'a', ch 'b']] := .cons ⟨Nat.one_pos, List.all_eq_true.mp rfl⟩ .nil
  refine ⟨⟨by decide, by decide, text_of_all rfl⟩, ht, not_ptablePrints ?_⟩
  refine @ptablePrint_eq_none _ _ _ 7 5 [1] ht (by decide) (by decide) ⟨6, rfl⟩ fun fuel => ?_
  exact printTable_eq_none ht (.inl rfl) (printRow_stuck hcolumns (by decide) (by decide) ⟨_, List.mem_cons_self, by decide⟩ fuel)

end Yjc.Base
