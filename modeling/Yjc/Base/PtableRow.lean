import Yjc.Base.Ptable
import Yjc.Base.PtableTrim

/-! The lines of a row, in `base/ptable.c`. The pointer to a cell is what is left of its string. A difference of sizes that would pass below
zero has no result, and neither has a step back from the beginning of a string. -/

namespace Yjc.Base
open CLib

def b2cp (s : List UInt8) (n : ℕ) : ℕ := utf8len (s.take n)

/-- The bytes of the first `max` code points. -/
def breakWalk : List UInt8 → ℕ → ℕ
  | [], _ => 0
  | _ :: _, 0 => 0
  | c :: s, max + 1 => breakWalk s (if cpStart c then max else max + 1) + 1

/-- Back to white space, from anywhere but the end. -/
def breakBack (s : List UInt8) : ℕ → ℕ
  | 0 => 0
  | c + 1 => if s.getD (c + 1) 0 = 0 ∨ isspace (s.getD (c + 1) 0) then c + 1 else breakBack s c

/-- Back to the start of a code point. -/
def hyphenBack (s : List UInt8) : ℕ → Option ℕ
  | 0 => none
  | brk + 1 => if cpStart (s.getD brk 0) then some brk else hyphenBack s brk

/-- `find_break`: how many bytes go to a line, and whether a hyphen comes after them. -/
def findBreak (s : List UInt8) (max : ℕ) : Option (ℕ × Bool) :=
  if s = [] then some (0, false)
  else
    let brk := breakWalk s max
    let brk := brk + ((s.drop brk).takeWhile fun c => !cpStart c).length
    let c := breakBack s brk
    if c = 0 then (hyphenBack s brk).map fun brk => (brk, true) else some (c, false)

structure PtableCell where
  rest : List UInt8
  remaining : ℕ

def minus (a b : ℕ) : Option ℕ := if b ≤ a then some (a - b) else none

/-- White space at a break is not printed with the text. -/
def skipSpace (cell : PtableCell) (n : ℕ) (hyphen : Bool) : Option PtableCell :=
  if !hyphen ∧ isspace (cell.rest.getD n 0) then (minus cell.remaining 1).map fun remaining => ⟨cell.rest.drop 1, remaining⟩ else some cell

/-- What a line has of a cell. -/
def printCell (cell : PtableCell) (max : ℕ) : Option (List UInt8 × PtableCell) := do
  let (n, hyphen) ← findBreak cell.rest max
  let next ← skipSpace cell n hyphen
  let remaining ← minus next.remaining (b2cp next.rest n)
  let pad ← minus max (b2cp next.rest n)
  return ([ch '|', ch ' '] ++ cell.rest.take n ++ [if hyphen then ch '-' else ch ' '] ++ List.replicate pad (ch ' '),
    ⟨next.rest.drop n, remaining⟩)

/-- A line of a row, which ends after the last column. -/
def printLine : List ℕ → List PtableCell → Option (List UInt8 × List PtableCell)
  | [], _ => some ([], [])
  | _ :: _, [] => none
  | w :: max, cell :: cells => do
    let (text, cell) ← printCell cell w
    let (line, cells) ← printLine max cells
    return (text ++ (if max = [] then [ch '|', ch '\n'] else line), cell :: cells)

structure PtableLines where
  cells : List PtableCell
  out : List UInt8

/-- A round of `print_row`, which is finished when nothing remains of the cells. -/
def printRowRound (max : List ℕ) (t : PtableLines) : PtableLines ⊕ Option (List UInt8) :=
  match printLine max t.cells with
  | none => .inr none
  | some (line, cells) => if cells.all (·.remaining = 0) then .inr (some (t.out ++ line)) else .inl ⟨cells, t.out ++ line⟩

/-- `print_row`; a cell that has not been set has no result. -/
def printRow (fuel : ℕ) (data : PtableRow) (max : List ℕ) : Option (List UInt8) := do
  let cells ← data.mapM id
  (Loop.run (printRowRound max) fuel ⟨cells.map fun s => ⟨s, utf8len s⟩, []⟩).join

/-! ## Pieces -/

inductive PtableBreak
  | hyphen
  | blank
  | finish
deriving DecidableEq

/-- What is printed of a cell in one line. -/
structure PtablePiece where
  text : List UInt8
  brk : PtableBreak

def PtablePiece.spelled (p : PtablePiece) : List UInt8 := if p.brk = .blank then p.text ++ [ch ' '] else p.text

def PtablePiece.printed (w : ℕ) (p : PtablePiece) : List UInt8 :=
  [ch '|', ch ' '] ++ p.text ++ [if p.brk = .hyphen then ch '-' else ch ' '] ++ List.replicate (w - p.text.length) (ch ' ')

def lineText (ws : List ℕ) (line : List PtablePiece) : List UInt8 := (List.zipWith PtablePiece.printed ws line).flatten ++ [ch '|']

def columnSpelled (grid : List (List PtablePiece)) (i : ℕ) : List UInt8 :=
  grid.flatMap fun pieces => (pieces[i]?.map PtablePiece.spelled).getD []

structure Spells (grid : List (List PtablePiece)) (cells : List (List UInt8)) : Prop where
  pieces : ∀ line ∈ grid, line.length = cells.length
  spelled : (List.range cells.length).map (columnSpelled grid) = cells

/-- A printable character of ASCII, or a blank. -/
def printable (c : UInt8) : Bool := 32 ≤ c ∧ c < 127

/-- Every other character is a blank, from the second one on. -/
def oddSpaces : List UInt8 → Bool
  | _ :: c :: s => c = ch ' ' && oddSpaces s
  | _ => true

/-! ## Breaks of printable text -/

variable {s : List UInt8} {w k e : ℕ}

theorem printable_cpStart (c : UInt8) : printable c → cpStart c ∧ c ≠ 0 ∧ (isspace c → c = ch ' ') := by
  intro h
  simp [printable, cpStart, isspace, ch, UInt8.le_iff_toNat_le, UInt8.lt_iff_toNat_lt, ← UInt8.toNat_inj] at h ⊢
  omega

theorem utf8len_printable (h : ∀ c ∈ s, printable c) : utf8len s = s.length :=
  List.countP_eq_length.mpr fun c hc => (printable_cpStart c (h c hc)).1

theorem b2cp_printable (h : ∀ c ∈ s, printable c) (hk : k ≤ s.length) : b2cp s k = k := by
  rw [b2cp, utf8len_printable fun c hc => h c (List.mem_of_mem_take hc), List.length_take, Nat.min_eq_left hk]

theorem breakWalk_printable (h : ∀ c ∈ s, printable c) (w : ℕ) : breakWalk s w = min w s.length := by
  induction s generalizing w with
  | nil => rw [breakWalk, List.length_nil, Nat.min_zero]
  | cons c s ih =>
    obtain ⟨hc, hs⟩ := List.forall_mem_cons.mp h
    cases w with
    | zero => rw [breakWalk, Nat.zero_min]
    | succ w => rw [breakWalk, if_pos (printable_cpStart c hc).1, ih hs, List.length_cons, Nat.succ_min_succ]

theorem breakBack_le (s : List UInt8) (e : ℕ) : breakBack s e ≤ e := by
  induction e with
  | zero => exact Nat.le_refl 0
  | succ e ih =>
    rw [breakBack]
    split
    · exact Nat.le_refl _
    · exact Nat.le_succ_of_le ih

theorem breakBack_end (hne : s ≠ []) : breakBack s s.length = s.length := by
  obtain ⟨n, hn⟩ := Nat.exists_eq_succ_of_ne_zero (mt List.length_eq_zero_iff.mp hne)
  rw [hn, breakBack, if_pos (.inl (List.getD_eq_default _ _ (Nat.le_of_eq hn)))]

theorem breakBack_blank (h : ∀ c ∈ s, printable c) (he : e < s.length) (hpos : breakBack s e ≠ 0) : s.getD (breakBack s e) 0 = ch ' ' := by
  induction e with
  | zero => exact absurd rfl hpos
  | succ e ih =>
    have hmem : s.getD (e + 1) 0 ∈ s := by
      rw [List.getD_eq_getElem _ _ he]
      exact List.getElem_mem he
    obtain ⟨_, hnul, hspace⟩ := printable_cpStart _ (h _ hmem)
    rw [breakBack] at hpos ⊢
    by_cases hstop : s.getD (e + 1) 0 = 0 ∨ isspace (s.getD (e + 1) 0)
    · rw [if_pos hstop]
      exact hspace (hstop.resolve_left hnul)
    · rw [if_neg hstop] at hpos ⊢
      exact ih (Nat.lt_of_succ_lt he) hpos

theorem takeWhile_drop_printable (h : ∀ c ∈ s, printable c) (k : ℕ) : (s.drop k).takeWhile (fun c => !cpStart c) = [] := by
  cases hk : s.drop k with
  | nil => rfl
  | cons c rest =>
    have hc : c ∈ s := List.mem_of_mem_drop (hk ▸ List.mem_cons_self)
    rw [List.takeWhile_cons, if_neg (by rw [(printable_cpStart c (h c hc)).1]; decide)]

theorem findBreak_whole (h : ∀ c ∈ s, printable c) (hw : s.length ≤ w) : findBreak s w = some (s.length, false) := by
  by_cases hne : s = []
  · rw [findBreak, if_pos hne, hne]
    rfl
  · rw [findBreak, if_neg hne]
    dsimp only
    rw [takeWhile_drop_printable h, List.length_nil, Nat.add_zero, breakWalk_printable h, Nat.min_eq_right hw, breakBack_end hne,
      if_neg (mt List.length_eq_zero_iff.mp hne)]

theorem findBreak_long (h : ∀ c ∈ s, printable c) (hw : w < s.length) :
    findBreak s w = if breakBack s w = 0 then (hyphenBack s w).map fun brk => (brk, true) else some (breakBack s w, false) := by
  -- a text that is too long for its column is broken at the last blank, or else before the last character of the column
  have hne : s ≠ [] := List.ne_nil_of_length_pos (Nat.zero_lt_of_lt hw)
  rw [findBreak, if_neg hne]
  dsimp only
  rw [takeWhile_drop_printable h, List.length_nil, Nat.add_zero, breakWalk_printable h, Nat.min_eq_left (Nat.le_of_lt hw)]

theorem hyphenBack_succ (h : ∀ c ∈ s, printable c) (hw : w < s.length) : hyphenBack s (w + 1) = some w := by
  rw [hyphenBack, List.getD_eq_getElem _ _ hw, if_pos (printable_cpStart _ (h _ (List.getElem_mem hw))).1]

/-! ## A piece of a cell -/

def pieceOf (w : ℕ) (s : List UInt8) : PtablePiece :=
  if s.length ≤ w then ⟨s, .finish⟩
  else if breakBack s w = 0 then ⟨s.take (w - 1), .hyphen⟩
  else ⟨s.take (breakBack s w), .blank⟩

def restOf (w : ℕ) (s : List UInt8) : List UInt8 :=
  if s.length ≤ w then []
  else if breakBack s w = 0 then s.drop (w - 1)
  else s.drop (breakBack s w + 1)

theorem pieceOf_spelled (h : ∀ c ∈ s, printable c) : s = (pieceOf w s).spelled ++ restOf w s := by
  rw [pieceOf, restOf]
  split
  · exact (List.append_nil s).symm
  · rename_i hw
    split
    · exact (List.take_append_drop (w - 1) s).symm
    · rename_i hb
      have hlt : breakBack s w < s.length := Nat.lt_of_le_of_lt (breakBack_le s w) (Nat.lt_of_not_le hw)
      have hblank := breakBack_blank h (Nat.lt_of_not_le hw) hb
      rw [List.getD_eq_getElem _ _ hlt] at hblank
      calc s = s.take (breakBack s w) ++ s.drop (breakBack s w) := (List.take_append_drop _ s).symm
        _ = s.take (breakBack s w) ++ (ch ' ' :: s.drop (breakBack s w + 1)) := by rw [List.drop_eq_getElem_cons hlt, hblank]
        _ = s.take (breakBack s w) ++ [ch ' '] ++ s.drop (breakBack s w + 1) := by rw [List.append_assoc, List.singleton_append]

theorem length_pieceOf_le (w : ℕ) (s : List UInt8) : (pieceOf w s).text.length ≤ w := by
  rw [pieceOf]
  split
  · assumption
  · split
    · exact Nat.le_trans (List.length_take_le _ _) (Nat.sub_le w 1)
    · exact Nat.le_trans (List.length_take_le _ _) (breakBack_le s w)

theorem length_printed (p : PtablePiece) (h : p.text.length ≤ w) : (p.printed w).length = w + 3 := by
  rw [PtablePiece.printed]
  simp only [List.length_append, List.length_cons, List.length_nil, List.length_replicate]
  omega

theorem printCell_eq (h : ∀ c ∈ s, printable c) (hw : 0 < w) :
    printCell ⟨s, s.length⟩ w = some ((pieceOf w s).printed w, ⟨restOf w s, (restOf w s).length⟩) := by
  rw [pieceOf, restOf]
  by_cases hlong : s.length ≤ w
  · have hskip : skipSpace ⟨s, s.length⟩ s.length false = some ⟨s, s.length⟩ := by
      rw [skipSpace, List.getD_eq_default _ _ (Nat.le_refl _)]
      exact if_neg (by decide)
    rw [printCell, findBreak_whole h hlong, if_pos hlong]
    simp only [Option.bind_eq_bind, Option.bind_some, hskip, b2cp_printable h (Nat.le_refl _), minus, if_pos (Nat.le_refl _), if_pos hlong,
      Nat.sub_self, List.take_length, List.drop_length]
    rfl
  · have hlt := Nat.lt_of_not_le hlong
    rw [printCell, findBreak_long h hlt, if_neg hlong, if_neg hlong]
    by_cases hb : breakBack s w = 0
    · obtain ⟨w, rfl⟩ := Nat.exists_eq_add_one.mpr hw
      have hskip : skipSpace ⟨s, s.length⟩ w true = some ⟨s, s.length⟩ := if_neg (by simp)
      have hle : w ≤ s.length := by omega
      rw [if_pos hb, hyphenBack_succ h (by omega)]
      simp only [Option.map_some, Option.bind_eq_bind, Option.bind_some, hskip, b2cp_printable h hle, minus, if_pos hle, if_pos (Nat.le_succ w),
        if_pos hb, Nat.add_sub_cancel, List.length_drop, PtablePiece.printed, List.length_take, Nat.min_eq_left hle]
      rfl
    · have hle : breakBack s w ≤ w := breakBack_le s w
      have hskip : skipSpace ⟨s, s.length⟩ (breakBack s w) false = some ⟨s.drop 1, s.length - 1⟩ := by
        rw [skipSpace, breakBack_blank h hlt hb, if_pos (by decide), minus, if_pos (by dsimp only; omega), Option.map_some]
      have hcount : b2cp (s.drop 1) (breakBack s w) = breakBack s w :=
        b2cp_printable (fun c hc => h c (List.mem_of_mem_drop hc)) (by rw [List.length_drop]; omega)
      have hmin : min (breakBack s w) s.length = breakBack s w := Nat.min_eq_left (by omega)
      rw [if_neg hb]
      simp only [Option.bind_eq_bind, Option.bind_some, hskip, hcount, minus, if_pos hle, if_neg hb, List.drop_drop, List.length_drop,
        PtablePiece.printed, List.length_take, hmin]
      rw [if_pos (by omega), Nat.add_comm 1, Nat.sub_sub, Nat.add_comm 1]
      rfl

theorem restOf_printable (h : ∀ c ∈ s, printable c) : ∀ c ∈ restOf w s, printable c := by
  intro c hc
  refine h c ?_
  rw [pieceOf_spelled (w := w) h]
  exact List.mem_append_right _ hc

theorem text_printable (h : ∀ c ∈ s, printable c) : ∀ c ∈ (pieceOf w s).text, printable c := by
  intro c hc
  refine h c ?_
  rw [pieceOf_spelled (w := w) h, PtablePiece.spelled]
  split
  · exact List.mem_append_left _ (List.mem_append_left _ hc)
  · exact List.mem_append_left _ hc

theorem restOf_one (a b : UInt8) (t : List UInt8) (h : ∀ c ∈ a :: b :: t, printable c) :
    restOf 1 (a :: b :: t) = if b = ch ' ' then t else a :: b :: t := by
  obtain ⟨_, hnul, hspace⟩ := printable_cpStart b (h b (List.mem_cons_of_mem _ List.mem_cons_self))
  have hback : breakBack (a :: b :: t) 1 = if b = ch ' ' then 1 else 0 := by
    rw [breakBack, breakBack]
    refine if_congr ⟨fun hb => hspace (hb.resolve_left hnul), fun hb => .inr ?_⟩ rfl rfl
    rw [List.getD_cons_succ, List.getD_cons_zero, hb]
    decide
  rw [restOf, if_neg (by rw [List.length_cons, List.length_cons]; omega), hback]
  by_cases hb : b = ch ' '
  · rw [if_pos hb, if_pos hb]
    rfl
  · rw [if_neg hb, if_neg hb]
    rfl

theorem oddSpaces_restOf (h : ∀ c ∈ s, printable c) : oddSpaces (restOf 1 s) = oddSpaces s := by
  match s with
  | [] => rfl
  | [_] => rfl
  | a :: b :: t =>
    rw [restOf_one a b t h]
    by_cases hb : b = ch ' '
    · rw [if_pos hb, oddSpaces, decide_eq_true hb, Bool.true_and]
    · rw [if_neg hb]

theorem length_restOf_lt (h : ∀ c ∈ s, printable c) (hw : 0 < w) (hfit : 2 ≤ w ∨ oddSpaces s) (hne : s ≠ []) :
    (restOf w s).length < s.length := by
  have hpos : 0 < s.length := List.length_pos_of_ne_nil hne
  by_cases h2 : 2 ≤ w
  · rw [restOf]
    split
    · exact hpos
    · split
      · rw [List.length_drop]
        omega
      · rw [List.length_drop]
        omega
  · obtain rfl : w = 1 := by omega
    match s with
    | [_] => exact Nat.zero_lt_one
    | a :: b :: t =>
      have hodd := hfit.resolve_left (by omega)
      rw [oddSpaces, Bool.and_eq_true, decide_eq_true_iff] at hodd
      rw [restOf_one a b t h, if_pos hodd.1, List.length_cons, List.length_cons]
      omega

/-! ## A line -/

variable {ws : List ℕ} {cells : List (List UInt8)} {line : List PtablePiece} {grid : List (List PtablePiece)}

def cellsOf (cells : List (List UInt8)) : List PtableCell := cells.map fun s => ⟨s, s.length⟩

def Columns (ws : List ℕ) (cells : List (List UInt8)) : Prop := List.Forall₂ (fun w s => 0 < w ∧ ∀ c ∈ s, printable c) ws cells

theorem Columns.rest (h : Columns ws cells) : Columns ws (List.zipWith restOf ws cells) := by
  induction h with
  | nil => exact .nil
  | cons hcell _ ih => exact .cons ⟨hcell.1, restOf_printable hcell.2⟩ ih

theorem lineText_cons (w : ℕ) (p : PtablePiece) (ws : List ℕ) (line : List PtablePiece) :
    lineText (w :: ws) (p :: line) = p.printed w ++ lineText ws line := List.append_assoc ..

theorem printLine_eq (h : Columns ws cells) (hne : ws ≠ []) :
    printLine ws (cellsOf cells) =
      some (lineText ws (List.zipWith pieceOf ws cells) ++ [ch '\n'], cellsOf (List.zipWith restOf ws cells)) := by
  induction h with
  | nil => exact absurd rfl hne
  | @cons w s ws cells hcell htail ih =>
    rw [cellsOf, List.map_cons, printLine, printCell_eq hcell.2 hcell.1, List.zipWith_cons_cons, lineText_cons, List.append_assoc]
    cases htail with
    | nil => rfl
    | cons _ _ =>
      have hnext := ih (List.cons_ne_nil _ _)
      rw [cellsOf] at hnext
      simp only [Option.bind_eq_bind, Option.bind_some, hnext, if_neg (List.cons_ne_nil _ _)]
      rfl

theorem printLine_zero (hlen : ws.length = cells.length) (hcells : ∀ s ∈ cells, s ≠ [] ∧ ∀ c ∈ s, printable c) (hzero : 0 ∈ ws) :
    printLine ws (cellsOf cells) = none := by
  induction ws generalizing cells with
  | nil => exact absurd hzero List.not_mem_nil
  | cons w ws ih =>
    obtain ⟨s, cells, rfl⟩ := List.exists_cons_of_length_pos (by rw [← hlen]; exact Nat.succ_pos _)
    obtain ⟨⟨hne, hs⟩, hrest⟩ := List.forall_mem_cons.mp hcells
    rw [cellsOf, List.map_cons, printLine]
    by_cases hw : w = 0
    · have hbreak : findBreak s w = none := by
        rw [hw, findBreak_long hs (List.length_pos_of_ne_nil hne)]
        rfl
      rw [printCell, hbreak]
      rfl
    · rw [printCell_eq hs (Nat.pos_of_ne_zero hw)]
      have hnone := ih (Nat.succ.inj hlen) hrest ((List.mem_cons.mp hzero).resolve_left (Ne.symm hw))
      rw [cellsOf] at hnone
      simp only [Option.bind_eq_bind, Option.bind_some]
      rw [hnone]
      rfl

/-! ## A row -/

def gridText (ws : List ℕ) (grid : List (List PtablePiece)) : List UInt8 := grid.flatMap fun line => lineText ws line ++ [ch '\n']

def PieceFits (w : ℕ) (p : PtablePiece) : Prop := p.text.length ≤ w ∧ ∀ c ∈ p.text, printable c

theorem newline_not_mem_printed {p : PtablePiece} (h : ∀ c ∈ p.text, printable c) : ch '\n' ∉ p.printed w := by
  intro hmem
  rw [PtablePiece.printed, List.mem_append, List.mem_append, List.mem_append] at hmem
  obtain ((hbar | htext) | hmark) | hpad := hmem
  · exact absurd hbar (by decide)
  · exact absurd (h _ htext) (by decide)
  · split at hmark
    · exact absurd hmark (by decide)
    · exact absurd hmark (by decide)
  · exact absurd (List.eq_of_mem_replicate hpad) (by decide)

theorem lineText_fits (h : List.Forall₂ PieceFits ws line) : (lineText ws line).length = lineWidth ws ∧ ch '\n' ∉ lineText ws line := by
  induction h with
  | nil => exact ⟨rfl, by decide⟩
  | @cons w p ws line hp _ ih =>
    rw [lineText_cons, List.length_append, ih.1, length_printed p hp.1, lineWidth, lineWidth, List.length_cons, List.sum_cons, List.mem_append]
    exact ⟨by omega, fun hmem => hmem.elim (newline_not_mem_printed hp.2) ih.2⟩

theorem Columns.pieces_fit (h : Columns ws cells) : List.Forall₂ PieceFits ws (List.zipWith pieceOf ws cells) := by
  induction h with
  | nil => exact .nil
  | @cons w s _ _ hcell _ ih => exact .cons ⟨length_pieceOf_le w s, text_printable hcell.2⟩ ih

theorem columnSpelled_cons (pieces : List PtablePiece) (grid : List (List PtablePiece)) (i : ℕ) :
    columnSpelled (pieces :: grid) i = (pieces[i]?.map PtablePiece.spelled).getD [] ++ columnSpelled grid i := rfl

theorem Spells.cons (h : Columns ws cells) (hrest : Spells grid (List.zipWith restOf ws cells)) :
    Spells (List.zipWith pieceOf ws cells :: grid) cells := by
  have hlen : ws.length = cells.length := h.length_eq
  have hzip : (List.zipWith restOf ws cells).length = cells.length := by rw [List.length_zipWith, hlen, Nat.min_self]
  refine ⟨List.forall_mem_cons.mpr ⟨by rw [List.length_zipWith, hlen, Nat.min_self], fun line hline => hzip ▸ hrest.pieces line hline⟩, ?_⟩
  refine List.ext_getElem (by rw [List.length_map, List.length_range]) fun i _ hi => ?_
  have hw : i < ws.length := hlen ▸ hi
  have hcol : columnSpelled grid i = restOf ws[i] cells[i] := by
    have hspelled := congrArg (·[i]?) hrest.spelled
    simpa [List.getElem?_range, hzip, hi, List.getElem?_zipWith, hw] using hspelled
  have hprintable : ∀ c ∈ cells[i], printable c := (List.forall₂_iff_get.mp h).2 i hw hi |>.2
  rw [List.getElem_map, List.getElem_range, columnSpelled_cons, hcol, List.getElem?_zipWith, List.getElem?_eq_getElem hw,
    List.getElem?_eq_getElem hi]
  exact (pieceOf_spelled hprintable).symm

theorem spells_nil (h : ∀ s ∈ cells, s = []) : Spells [] cells := by
  refine ⟨fun line hline => absurd hline List.not_mem_nil, List.ext_getElem (by rw [List.length_map, List.length_range]) fun i _ hi => ?_⟩
  rw [List.getElem_map]
  exact (h _ (List.getElem_mem hi)).symm

theorem cellsOf_all : (cellsOf cells).all (·.remaining = 0) = true ↔ ∀ s ∈ cells, s = [] := by
  simp [cellsOf]

theorem printRowRound_eq (h : Columns ws cells) (hne : ws ≠ []) (out : List UInt8) :
    printRowRound ws ⟨cellsOf cells, out⟩ =
      if ∀ s ∈ List.zipWith restOf ws cells, s = [] then .inr (some (out ++ (lineText ws (List.zipWith pieceOf ws cells) ++ [ch '\n'])))
      else .inl ⟨cellsOf (List.zipWith restOf ws cells), out ++ (lineText ws (List.zipWith pieceOf ws cells) ++ [ch '\n'])⟩ := by
  rw [printRowRound, printLine_eq h hne]
  exact if_congr cellsOf_all rfl rfl

def Flows (ws : List ℕ) (cells : List (List UInt8)) : Prop := List.Forall₂ (fun w s => 2 ≤ w ∨ oddSpaces s) ws cells

def lettersLeft (cells : List (List UInt8)) : ℕ := (cells.map List.length).sum

theorem Flows.rest (h : Columns ws cells) (hflow : Flows ws cells) : Flows ws (List.zipWith restOf ws cells) := by
  induction h with
  | nil => exact .nil
  | @cons w s ws cells hcell _ ih =>
    cases hflow with
    | cons hs hrest =>
      refine .cons ?_ (ih hrest)
      by_cases h2 : 2 ≤ w
      · exact .inl h2
      · obtain rfl : w = 1 := by have := hcell.1; omega
        exact .inr ((oddSpaces_restOf hcell.2).trans (hs.resolve_left h2))

theorem Flows.lettersLeft_lt (h : Columns ws cells) (hflow : Flows ws cells) :
    lettersLeft (List.zipWith restOf ws cells) ≤ lettersLeft cells ∧
      (¬(∀ s ∈ List.zipWith restOf ws cells, s = []) → lettersLeft (List.zipWith restOf ws cells) < lettersLeft cells) := by
  induction h with
  | nil => exact ⟨Nat.le_refl _, fun hne => absurd (fun s hs => absurd hs List.not_mem_nil) hne⟩
  | @cons w s ws cells hcell _ ih =>
    cases hflow with
    | cons hs hrest =>
      obtain ⟨hle, hlt⟩ := ih hrest
      simp only [lettersLeft, List.zipWith_cons_cons, List.map_cons, List.sum_cons, List.forall_mem_cons] at hle hlt ⊢
      by_cases hnil : s = []
      · have hempty : restOf w [] = [] := if_pos (Nat.zero_le w)
        rw [hnil, hempty]
        exact ⟨Nat.add_le_add_left hle _, fun hne => Nat.add_lt_add_left (hlt fun hall => hne ⟨rfl, hall⟩) _⟩
      · have hless := length_restOf_lt hcell.2 hcell.1 hs hnil
        exact ⟨by omega, fun _ => by omega⟩

theorem rowLoop_run (h : Columns ws cells) (hflow : Flows ws cells) (hne : ws ≠ []) (out : List UInt8) :
    ∃ fuel grid, Loop.run (printRowRound ws) fuel ⟨cellsOf cells, out⟩ = some (some (out ++ gridText ws grid)) ∧
      Spells grid cells ∧ ∀ line ∈ grid, List.Forall₂ PieceFits ws line := by
  induction hk : lettersLeft cells using Nat.strongRecOn generalizing cells out with
  | ind k ih =>
    have hround := printRowRound_eq h hne out
    by_cases hdone : ∀ s ∈ List.zipWith restOf ws cells, s = []
    · rw [if_pos hdone] at hround
      refine ⟨1, [List.zipWith pieceOf ws cells], ?_, (spells_nil hdone).cons h, List.forall_mem_singleton.mpr h.pieces_fit⟩
      rw [Loop.run_leave hround, gridText, List.flatMap_singleton]
    · rw [if_neg hdone] at hround
      have hlt := (hflow.lettersLeft_lt h).2 hdone
      obtain ⟨fuel, grid, hrun, hspells, hfits⟩ := ih _ (hk ▸ hlt) h.rest (hflow.rest h)
        (out ++ (lineText ws (List.zipWith pieceOf ws cells) ++ [ch '\n'])) rfl
      refine ⟨fuel + 1, List.zipWith pieceOf ws cells :: grid, ?_, hspells.cons h, List.forall_mem_cons.mpr ⟨h.pieces_fit, hfits⟩⟩
      rw [Loop.run_again hround, hrun, gridText, gridText, List.flatMap_cons, List.append_assoc out]

theorem exists_stuck_rest (h : Columns ws cells) (hone : ∀ w ∈ ws, w = 1) (hstuck : ∃ s ∈ cells, ¬oddSpaces s) :
    ∃ s ∈ List.zipWith restOf ws cells, ¬oddSpaces s := by
  induction h with
  | nil => exact hstuck
  | cons hcell _ ih =>
    obtain ⟨rfl, hrest⟩ := List.forall_mem_cons.mp hone
    obtain ⟨s, hmem, hs⟩ := hstuck
    obtain rfl | hmem := List.mem_cons.mp hmem
    · exact ⟨_, List.mem_cons_self, by rw [oddSpaces_restOf hcell.2]; exact hs⟩
    · obtain ⟨r, hr, hodd⟩ := ih hrest ⟨s, hmem, hs⟩
      exact ⟨r, List.mem_cons_of_mem _ hr, hodd⟩

theorem rowLoop_stuck (h : Columns ws cells) (hone : ∀ w ∈ ws, w = 1) (hstuck : ∃ s ∈ cells, ¬oddSpaces s) (hne : ws ≠ [])
    (fuel : ℕ) (out : List UInt8) : Loop.run (printRowRound ws) fuel ⟨cellsOf cells, out⟩ = none := by
  -- a cell with another character where a blank is needed stays in its column of one character forever
  refine Loop.run_none_of_trapped _ (fun t => ∃ cells, t.cells = cellsOf cells ∧ Columns ws cells ∧ ∃ s ∈ cells, ¬oddSpaces s) ?_
    ⟨cells, rfl, h, hstuck⟩ fuel
  intro t htrap
  obtain ⟨cells, hcells, h, hstuck⟩ := htrap
  have hround := printRowRound_eq h hne t.out
  obtain ⟨s, hs, hodd⟩ := exists_stuck_rest h hone hstuck
  rw [if_neg fun hall => hodd (by rw [hall s hs]; rfl), ← hcells] at hround
  exact ⟨_, hround, _, rfl, h.rest, s, hs, hodd⟩

end Yjc.Base
