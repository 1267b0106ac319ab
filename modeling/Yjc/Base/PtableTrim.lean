import Mathlib.Algebra.BigOperators.Group.List.Basic
import Mathlib.Algebra.GroupWithZero.Nat
import Mathlib.Data.List.Forall2
import Yjc.Lib.Loop

/-! The widths that `ptable_print`, in `base/ptable.c`, gives the columns of a table: while a line is too long, every column that is wider than
a level loses one character, and the level sinks when no column is.

A difference of sizes that would pass below zero has no result. -/

namespace Yjc.Base

structure PtableWidths where
  max : List ℕ
  width : ℕ
  trimthrshld : ℕ

/-- The loop over the columns: their widths and that of a line, and whether no column was too wide. -/
def trimColumns (avg trimthrshld : ℕ) : List ℕ → ℕ → Option (List ℕ × ℕ × Bool)
  | [], width => some ([], width, true)
  | m :: max, width =>
    if avg < m + trimthrshld then
      if m = 0 ∨ width = 0 then none
      else (trimColumns avg trimthrshld max (width - 1)).map fun r => ((m - 1) :: r.1, r.2.1, false)
    else (trimColumns avg trimthrshld max width).map fun r => (m :: r.1, r.2)

/-- A round of the loop that trims. -/
def trimRound (n avg : ℕ) (t : PtableWidths) : PtableWidths ⊕ Option (List ℕ × ℕ) :=
  if n < t.width then
    match trimColumns avg t.trimthrshld t.max t.width with
    | none => .inr none
    | some (max, width, noneCut) => .inl ⟨max, width, if noneCut then t.trimthrshld + 1 else t.trimthrshld⟩
  else .inr (some (t.max, t.width))

def lineWidth (ws : List ℕ) : ℕ := ws.length * 3 + 1 + ws.sum

/-! ## A round -/

variable {n avg thr c c' k w : ℕ} {m ws : List ℕ} {t : PtableWidths}

def lowered (c w : ℕ) : ℕ := if c < w then w - 1 else w

theorem lowered_of_le (h : w ≤ c) : lowered c w = w := if_neg (Nat.not_lt_of_le h)

theorem map_lowered_of_le (h : ∀ w ∈ ws, w ≤ c) : ws.map (lowered c) = ws := by
  conv_rhs => rw [← List.map_id ws]
  exact List.map_congr_left fun w hw => lowered_of_le (h w hw)

theorem trimColumns_eq (h : thr ≤ avg) (k : ℕ) (ws : List ℕ) :
    trimColumns avg thr ws (k + ws.sum) =
      some (ws.map (lowered (avg - thr)), k + (ws.map (lowered (avg - thr))).sum, ws.all (· ≤ avg - thr)) := by
  induction ws generalizing k with
  | nil => rfl
  | cons w ws ih =>
    rw [trimColumns, List.sum_cons, List.map_cons, List.sum_cons, List.all_cons]
    by_cases hw : avg < w + thr
    · have hlevel : avg - thr < w := by omega
      have hwidth : k + (w + ws.sum) - 1 = k + w - 1 + ws.sum := by omega
      rw [if_pos hw, if_neg (by omega), hwidth, ih, Option.map_some, lowered, if_pos hlevel, decide_eq_false (Nat.not_le_of_lt hlevel),
        Bool.false_and, Nat.add_sub_assoc (by omega), Nat.add_assoc]
    · have hlevel : w ≤ avg - thr := by omega
      rw [if_neg hw, ← Nat.add_assoc, ih, Option.map_some, lowered_of_le hlevel, decide_eq_true hlevel, Bool.true_and, Nat.add_assoc]

theorem sum_map_lowered (c : ℕ) (ws : List ℕ) :
    (ws.map (lowered c)).sum ≤ ws.sum ∧ (¬(ws.all (· ≤ c)) → (ws.map (lowered c)).sum < ws.sum) := by
  induction ws with
  | nil => exact ⟨Nat.le_refl _, fun h => absurd rfl h⟩
  | cons w ws ih =>
    obtain ⟨hle, hlt⟩ := ih
    rw [List.map_cons, List.sum_cons, List.sum_cons, List.all_cons, lowered]
    by_cases hw : c < w
    · rw [if_pos hw]
      exact ⟨by omega, fun _ => by omega⟩
    · rw [if_neg hw, decide_eq_true (Nat.le_of_not_lt hw), Bool.true_and]
      exact ⟨by omega, fun h => by have := hlt h; omega⟩

/-! ## Levels -/

def cutAt (c : ℕ) (m : List ℕ) : List ℕ := m.map (min · c)

def AboveLevel (c : ℕ) (m ws : List ℕ) : Prop := List.Forall₂ (fun m w => min m c ≤ w ∧ w ≤ m) m ws

theorem AboveLevel.eq_cutAt (h : AboveLevel c m ws) (hc : ∀ w ∈ ws, w ≤ c) : ws = cutAt c m := by
  induction h with
  | nil => rfl
  | cons hw _ ih =>
    obtain ⟨hwc, hrest⟩ := List.forall_mem_cons.mp hc
    rw [cutAt, List.map_cons]
    exact congrArg₂ _ (by omega) (ih hrest)

theorem aboveLevel_cutAt (c : ℕ) (m : List ℕ) : AboveLevel c m (cutAt c m) := by
  induction m with
  | nil => exact .nil
  | cons m ms ih => exact .cons ⟨Nat.le_refl _, Nat.min_le_left m c⟩ ih

theorem AboveLevel.sum_le (h : AboveLevel c m ws) : (cutAt c m).sum ≤ ws.sum := by
  induction h with
  | nil => exact Nat.le_refl _
  | cons hw _ ih =>
    rw [cutAt, List.map_cons, List.sum_cons, List.sum_cons]
    exact Nat.add_le_add hw.1 ih

theorem AboveLevel.lower (h : AboveLevel c m ws) (hc : c' ≤ c) : AboveLevel c' m ws :=
  List.Forall₂.imp (fun _ _ hw => ⟨(by omega), hw.2⟩) h

theorem AboveLevel.lineWidth_le (h : AboveLevel c m ws) : lineWidth (cutAt c m) ≤ lineWidth ws := by
  have hlen := h.length_eq
  have hsum := h.sum_le
  rw [lineWidth, lineWidth, cutAt, List.length_map, hlen]
  rw [cutAt] at hsum
  omega

theorem lineWidth_cutAt_mono (h : c' ≤ c) (m : List ℕ) : lineWidth (cutAt c' m) ≤ lineWidth (cutAt c m) :=
  ((aboveLevel_cutAt c m).lower h).lineWidth_le

theorem AboveLevel.map_lowered (h : AboveLevel c m ws) : AboveLevel c m (ws.map (lowered c)) := by
  refine List.forall₂_map_right_iff.mpr (List.Forall₂.imp (fun m w hw => ?_) h)
  rw [lowered]
  split <;> omega

theorem map_lowered_cutAt (h : c' = c ∨ c' = c + 1) (m : List ℕ) : (cutAt c' m).map (lowered c) = cutAt c m := by
  rw [cutAt, List.map_map, cutAt]
  refine List.map_congr_left fun m _ => ?_
  rw [Function.comp_apply, lowered]
  split <;> omega

/-! ## The loop -/

/-- Of a line longer than `n` the columns are cut to a level, from the first one on: with a threshold they are at the level exactly, and not
at the one above it, where the line was too long. -/
structure TrimAt (n avg : ℕ) (m : List ℕ) (t : PtableWidths) (c : ℕ) : Prop where
  trimthrshld : t.trimthrshld ≤ avg
  width : t.width = lineWidth t.max
  above : AboveLevel c m t.max
  start : t.trimthrshld = 0 → c = avg
  near : 0 < t.trimthrshld → (c = avg - t.trimthrshld ∨ c = avg - t.trimthrshld + 1) ∧ t.max = cutAt c m
  tight : c = avg ∨ n < lineWidth (cutAt (c + 1) m)

theorem TrimAt.level_le (h : TrimAt n avg m t c) : avg - t.trimthrshld ≤ c := by
  by_cases hthr : t.trimthrshld = 0
  · have := h.start hthr
    omega
  · have := (h.near (Nat.pos_of_ne_zero hthr)).1
    omega

theorem trimRound_eq (h : TrimAt n avg m t c) (hlong : n < t.width) :
    trimRound n avg t = .inl ⟨t.max.map (lowered (avg - t.trimthrshld)), lineWidth (t.max.map (lowered (avg - t.trimthrshld))),
      if t.max.all (· ≤ avg - t.trimthrshld) then t.trimthrshld + 1 else t.trimthrshld⟩ := by
  have hwidth : t.width = t.max.length * 3 + 1 + t.max.sum := h.width
  rw [trimRound, if_pos hlong, hwidth, trimColumns_eq h.trimthrshld]
  dsimp only
  rw [lineWidth, List.length_map]

theorem TrimAt.next (h : TrimAt n avg m t c) (hlong : n < t.width) (hroom : m.length * 3 + 1 ≤ n) :
    TrimAt n avg m ⟨t.max.map (lowered (avg - t.trimthrshld)), lineWidth (t.max.map (lowered (avg - t.trimthrshld))),
      if t.max.all (· ≤ avg - t.trimthrshld) then t.trimthrshld + 1 else t.trimthrshld⟩ (avg - t.trimthrshld) := by
  have habove := h.above.lower h.level_le
  have htight : avg - t.trimthrshld = avg ∨ n < lineWidth (cutAt (avg - t.trimthrshld + 1) m) := by
    by_cases hthr : t.trimthrshld = 0
    · exact .inl (by omega)
    · obtain ⟨hc, hmax⟩ := h.near (Nat.pos_of_ne_zero hthr)
      cases hc with
      | inl hc => exact hc ▸ h.tight
      | inr hc =>
        rw [h.width, hmax, hc] at hlong
        exact .inr hlong
  by_cases hall : t.max.all (· ≤ avg - t.trimthrshld) = true
  · have hle : ∀ w ∈ t.max, w ≤ avg - t.trimthrshld := by simpa using hall
    have hcut := habove.eq_cutAt hle
    -- At level zero the line would be as short as it can be.
    have hthr : t.trimthrshld < avg := by
      refine Nat.lt_of_le_of_ne h.trimthrshld fun heq => ?_
      have hzero : t.max.sum = 0 := List.sum_eq_zero_iff_forall_eq_nat.mpr fun w hw => by have := hle w hw; omega
      have hlen := habove.length_eq
      have hwidth := h.width
      rw [lineWidth, hzero] at hwidth
      omega
    rw [if_pos hall, map_lowered_of_le hle]
    exact ⟨hthr, rfl, habove, fun hzero => absurd hzero (Nat.succ_ne_zero _), fun _ => ⟨.inr (by dsimp only; omega), hcut⟩, htight⟩
  · rw [if_neg hall]
    refine ⟨h.trimthrshld, rfl, habove.map_lowered, fun hzero => by dsimp only at hzero; omega, fun hpos => ⟨.inl rfl, ?_⟩, htight⟩
    obtain ⟨hc, hmax⟩ := h.near hpos
    dsimp only
    rw [hmax]
    exact map_lowered_cutAt hc m

/-- The widths of the columns of a line that fits: no column has lost more than the level takes, and a low level is needed. -/
structure Trimmed (n : ℕ) (m ws : List ℕ) : Prop where
  fits : lineWidth ws ≤ n
  level : ∃ c, AboveLevel c m ws ∧ (3 ≤ c ∨ ws = cutAt c m ∧ n < lineWidth (cutAt (c + 1) m))

theorem TrimAt.trimmed (h : TrimAt n avg m t c) (havg : 3 ≤ avg) (hfits : ¬n < t.width) : Trimmed n m t.max := by
  refine ⟨h.width ▸ Nat.le_of_not_lt hfits, c, h.above, ?_⟩
  by_cases hthr : t.trimthrshld = 0
  · exact .inl (h.start hthr ▸ havg)
  · cases h.tight with
    | inl heq => exact .inl (heq ▸ havg)
    | inr hcut => exact .inr ⟨(h.near (Nat.pos_of_ne_zero hthr)).2, hcut⟩

theorem trimRound_run (hm : m ≠ []) (hroom : m.length * 3 + 2 ≤ n) :
    ∃ fuel ws, Loop.run (trimRound n (n / m.length)) fuel ⟨m, lineWidth m, 0⟩ = some (some (ws, lineWidth ws)) ∧ Trimmed n m ws := by
  have hlen : 0 < m.length := List.length_pos_of_ne_nil hm
  have havg : 3 ≤ n / m.length := (Nat.le_div_iff_mul_le hlen).mpr (by omega)
  have hround : ∀ t t', (∃ c, TrimAt n (n / m.length) m t c) → trimRound n (n / m.length) t = .inl t' →
      (∃ c, TrimAt n (n / m.length) m t' c) ∧
        t'.max.sum + (n / m.length + 1 - t'.trimthrshld) < t.max.sum + (n / m.length + 1 - t.trimthrshld) := by
    intro t t' hinv ht
    obtain ⟨c, h⟩ := hinv
    by_cases hlong : n < t.width
    · rw [trimRound_eq h hlong] at ht
      cases ht
      refine ⟨⟨_, h.next hlong (by omega)⟩, ?_⟩
      -- Either a column is cut, or the threshold grows.
      obtain ⟨hle, hlt⟩ := sum_map_lowered (n / m.length - t.trimthrshld) t.max
      have hthr := h.trimthrshld
      dsimp only
      split
      · omega
      · have := hlt ‹_›
        omega
    · rw [trimRound, if_neg hlong] at ht
      cases ht
  have hleave : ∀ t r, (∃ c, TrimAt n (n / m.length) m t c) → trimRound n (n / m.length) t = .inr r →
      ∃ ws, r = some (ws, lineWidth ws) ∧ Trimmed n m ws := by
    intro t r hinv ht
    obtain ⟨c, h⟩ := hinv
    by_cases hlong : n < t.width
    · rw [trimRound_eq h hlong] at ht
      cases ht
    · rw [trimRound, if_neg hlong] at ht
      cases ht
      exact ⟨t.max, by rw [h.width], h.trimmed havg hlong⟩
  have hstart : TrimAt n (n / m.length) m ⟨m, lineWidth m, 0⟩ (n / m.length) :=
    ⟨Nat.zero_le _, rfl, List.forall₂_same.mpr fun w _ => ⟨Nat.min_le_left w _, Nat.le_refl w⟩, fun _ => rfl,
      fun hpos => absurd hpos (Nat.lt_irrefl 0), .inl rfl⟩
  obtain ⟨r, hrun, ws, rfl, hws⟩ := Loop.run_of_measure _ _ _ _ hround hleave ⟨_, hstart⟩ (Nat.lt_succ_self _)
  exact ⟨_, ws, hrun, hws⟩

/-! ## Narrow columns -/

theorem Trimmed.length_eq (h : Trimmed n m ws) : ws.length = m.length := by
  obtain ⟨c, habove, _⟩ := h.level
  exact habove.length_eq.symm

theorem Trimmed.two_le (h : Trimmed n m ws) (hn : lineWidth (cutAt 2 m) ≤ n) : AboveLevel 2 m ws := by
  -- where every column can keep two characters, none is cut below them
  obtain ⟨c, habove, hc⟩ := h.level
  by_cases h2 : 2 ≤ c
  · exact habove.lower h2
  · cases hc with
    | inl h3 => exact absurd (Nat.le_of_succ_le h3) h2
    | inr hcut =>
      have := lineWidth_cutAt_mono (by omega : c + 1 ≤ 2) m
      omega

theorem lineWidth_cutAt_one (hm : ∀ w ∈ m, 0 < w) : lineWidth (cutAt 1 m) = m.length * 4 + 1 := by
  have hone : cutAt 1 m = List.replicate m.length 1 := by
    rw [← List.map_const']
    exact List.map_congr_left fun w hw => Nat.min_eq_right (hm w hw)
  rw [hone, lineWidth, List.length_replicate, List.sum_replicate_nat]
  omega

theorem Trimmed.eq_one (h : Trimmed n m ws) (hm : ∀ w ∈ m, 0 < w) (hn : n < lineWidth (cutAt 2 m)) (hroom : m.length * 4 + 1 ≤ n) :
    ∀ w ∈ ws, w = 1 := by
  obtain ⟨c, habove, hc⟩ := h.level
  have hc2 : c < 2 := by
    refine Nat.lt_of_not_le fun h2 => ?_
    have := (habove.lower h2).lineWidth_le
    have := h.fits
    omega
  obtain ⟨rfl, hcut⟩ := hc.resolve_left (by omega)
  have hc0 : c ≠ 0 := by
    intro hc0
    rw [hc0, lineWidth_cutAt_one hm] at hcut
    omega
  obtain rfl : c = 1 := by omega
  intro w hw
  obtain ⟨v, hv, rfl⟩ := List.mem_map.mp hw
  exact Nat.min_eq_right (hm v hv)

theorem Trimmed.exists_zero (h : Trimmed n m ws) (hn : n < m.length * 4 + 1) : 0 ∈ ws := by
  by_contra hzero
  have hlen := h.length_eq
  have hfits := h.fits
  have hsum : ws.length ≤ ws.sum := List.length_le_sum_of_one_le ws fun w hw => Nat.pos_of_ne_zero (ne_of_mem_of_not_mem hw hzero)
  rw [lineWidth] at hfits
  omega

end Yjc.Base
