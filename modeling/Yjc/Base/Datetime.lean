import Mathlib.Algebra.Group.Int.Defs
import Mathlib.Tactic.Ring
import Yjc.Lib.Loop

/-! The date arithmetic of `base/datetime.c`, and the day numbers of the Gregorian calendar. -/

namespace Yjc.Base

/-- `datetime_t` -/
@[ext] structure Datetime where
  year : ℤ
  month : ℤ
  day : ℤ
  hour : ℤ
  min : ℤ
  sec : ℤ
  ms : ℤ
deriving DecidableEq

/-- The result of an operation on `int`s; `none` where it overflows. -/
def int (n : ℤ) : Option ℤ := if -2 ^ 31 ≤ n ∧ n < 2 ^ 31 then some n else none

def sDays : List ℤ := [31, 28, 31, 30, 31, 30, 31, 31, 30, 31, 30, 31]

/-- `IS_LEAP_YEAR`, with the remainders of C. -/
def IsLeapYear (year : ℤ) : Prop := year.tmod 4 = 0 ∧ year.tmod 100 ≠ 0 ∨ year.tmod 400 = 0

instance decidableIsLeapYear (year : ℤ) : Decidable (IsLeapYear year) := inferInstanceAs (Decidable (_ ∧ _ ∨ _))

def daysOfMonth (month year : ℤ) : ℤ :=
  if month < 1 ∨ 12 < month then 0
  else
    let days := sDays.getD (month - 1).toNat 0
    if month = 2 ∧ IsLeapYear year then days + 1 else days

/-- `if (--dt->month == 0) { dt->month = 12; --dt->year; }` -/
def Datetime.back (dt : Datetime) : Option Datetime := do
  let month ← int (dt.month - 1)
  if month = 0 then return { dt with month := 12, year := (← int (dt.year - 1)) } else return { dt with month }

/-- `if (++dt->month > 12) { dt->month = 1; ++dt->year; }` -/
def Datetime.forth (dt : Datetime) : Option Datetime := do
  let month ← int (dt.month + 1)
  if 12 < month then return { dt with month := 1, year := (← int (dt.year + 1)) } else return { dt with month }

/-- A round of a loop that goes on with what `next` gives, unless this overflows. -/
def goOn (next : Option (Datetime × ℤ)) : Datetime × ℤ ⊕ Option Datetime :=
  match next with
  | some s => .inl s
  | none => .inr none

/-- A round of `datetime_past`, with `dt` and `sub`. -/
def pastRound : Datetime × ℤ → Datetime × ℤ ⊕ Option Datetime
  | (dt, sub) =>
    if sub = 0 then .inr (some dt)
    else if sub < dt.day then .inr ((int (dt.day - sub)).map fun day => { dt with day })
    else goOn do
      let sub ← int (sub - dt.day)
      let dt ← dt.back
      return ({ dt with day := daysOfMonth dt.month dt.year }, sub)

/-- A round of `datetime_future`. -/
def futureRound : Datetime × ℤ → Datetime × ℤ ⊕ Option Datetime
  | (dt, sub) =>
    if sub = 0 then .inr (some dt)
    else
      let mdays := daysOfMonth dt.month dt.year
      match int (dt.day + sub) with
      | none => .inr none
      | some day =>
        if day ≤ mdays then .inr (some { dt with day })
        else goOn do
          let rest ← int (mdays - dt.day + 1)
          let sub ← int (sub - rest)
          let dt ← dt.forth
          return ({ dt with day := 1 }, sub)

/-- `datetime_past(dt, days)` returns, and leaves `t`. -/
def DatetimePast (dt : Datetime) (days : ℤ) (t : Datetime) : Prop := ∃ fuel, Loop.run pastRound fuel (dt, days) = some (some t)

def DatetimeFuture (dt : Datetime) (days : ℤ) (t : Datetime) : Prop := ∃ fuel, Loop.run futureRound fuel (dt, days) = some (some t)

/-! ## Day numbers -/

def daysBefore (month : ℤ) : ℤ := [0, 31, 59, 90, 120, 151, 181, 212, 243, 273, 304, 334].getD (month - 1).toNat 0

/-- The days before a year of the proleptic Gregorian calendar, from the year 1 on. -/
def daysBeforeYear (year : ℤ) : ℤ := 365 * (year - 1) + (year - 1) / 4 - (year - 1) / 100 + (year - 1) / 400

def monthStart (month year : ℤ) : ℤ := daysBeforeYear year + daysBefore month + if 2 < month ∧ IsLeapYear year then 1 else 0

namespace Datetime

def dayNumber (dt : Datetime) : ℤ := monthStart dt.month dt.year + dt.day

/-- The days from the epoch of Unix on. -/
example : dayNumber ⟨1970, 1, 1, 0, 0, 0, 0⟩ = 719163 := by decide

structure Valid (dt : Datetime) : Prop where
  month : 1 ≤ dt.month ∧ dt.month ≤ 12
  day : 1 ≤ dt.day ∧ dt.day ≤ daysOfMonth dt.month dt.year

structure SameTime (dt dt' : Datetime) : Prop where
  hour : dt.hour = dt'.hour
  min : dt.min = dt'.min
  sec : dt.sec = dt'.sec
  ms : dt.ms = dt'.ms

end Datetime

variable {dt dt' t u : Datetime} {month year days sub a b n : ℤ}

theorem int_eq (h : -2 ^ 31 ≤ n) (h' : n < 2 ^ 31) : int n = some n := if_pos ⟨h, h'⟩

theorem isLeapYear_iff : IsLeapYear year ↔ year % 4 = 0 ∧ year % 100 ≠ 0 ∨ year % 400 = 0 := by
  have hrem (k : ℤ) : year.tmod k = 0 ↔ year % k = 0 := by rw [← Int.dvd_iff_tmod_eq_zero, Int.dvd_iff_emod_eq_zero]
  rw [IsLeapYear, ne_eq, hrem, hrem, hrem]

theorem sDays_getD (h : 1 ≤ month) (h' : month ≤ 11) :
    sDays.getD (month - 1).toNat 0 = daysBefore (month + 1) - daysBefore month := by
  have hall : ∀ k : Fin 11, sDays.getD ((k.val + 1 : ℤ) - 1).toNat 0 = daysBefore (k.val + 1 + 1) - daysBefore (k.val + 1) := by decide
  have hmonth : month = ((month - 1).toNat : ℤ) + 1 := by omega
  have := hall ⟨(month - 1).toNat, by omega⟩
  dsimp only at this
  rwa [← hmonth] at this

theorem daysOfMonth_eq (h : 1 ≤ month) (h' : month ≤ 12) :
    daysOfMonth month year = sDays.getD (month - 1).toNat 0 + if month = 2 ∧ IsLeapYear year then 1 else 0 := by
  rw [daysOfMonth, if_neg (by omega)]
  dsimp only
  split_ifs <;> omega

theorem daysOfMonth_december (year : ℤ) : daysOfMonth 12 year = 31 := by
  rw [daysOfMonth_eq (by decide) (by decide), if_neg (by omega)]
  decide

theorem monthStart_january (year : ℤ) : monthStart 1 year = daysBeforeYear year := by
  rw [monthStart, if_neg (by omega), show daysBefore 1 = 0 by decide]
  omega

theorem monthStart_succ (h : 1 ≤ month) (h' : month ≤ 11) :
    monthStart (month + 1) year = monthStart month year + daysOfMonth month year := by
  rw [monthStart, monthStart, daysOfMonth_eq h (by omega), sDays_getD h h']
  -- the leap day counts from March on, and is the last of February
  by_cases hleap : IsLeapYear year
  · simp only [hleap, and_true]
    split_ifs <;> omega
  · simp only [hleap, and_false, if_false]
    omega

theorem daysBeforeYear_succ (year : ℤ) : daysBeforeYear (year + 1) = monthStart 12 year + 31 := by
  have hdiv4 : year / 4 = (year - 1) / 4 + if year % 4 = 0 then 1 else 0 := by split_ifs <;> omega
  have hdiv100 : year / 100 = (year - 1) / 100 + if year % 100 = 0 then 1 else 0 := by split_ifs <;> omega
  have hdiv400 : year / 400 = (year - 1) / 400 + if year % 400 = 0 then 1 else 0 := by split_ifs <;> omega
  rw [monthStart, show daysBefore 12 = 334 by decide]
  by_cases hleap : IsLeapYear year
  · rw [if_pos ⟨by decide, hleap⟩, daysBeforeYear, daysBeforeYear, Int.add_sub_cancel, hdiv4, hdiv100, hdiv400]
    rw [isLeapYear_iff] at hleap
    clear hdiv4 hdiv100 hdiv400
    split_ifs <;> omega
  · rw [if_neg fun h => hleap h.2, daysBeforeYear, daysBeforeYear, Int.add_sub_cancel, hdiv4, hdiv100, hdiv400]
    rw [isLeapYear_iff] at hleap
    clear hdiv4 hdiv100 hdiv400
    split_ifs <;> omega

theorem monthStart_bounds (h : 1 ≤ month) (h' : month ≤ 12) :
    daysBeforeYear year ≤ monthStart month year ∧ monthStart month year ≤ daysBeforeYear year + 335 := by
  have hall : ∀ k : Fin 12, 0 ≤ daysBefore (k.val + 1) ∧ daysBefore (k.val + 1) ≤ 334 := by decide
  have hmonth : month = ((month - 1).toNat : ℤ) + 1 := by omega
  have hdays := hall ⟨(month - 1).toNat, by omega⟩
  dsimp only at hdays
  rw [← hmonth] at hdays
  rw [monthStart]
  split_ifs <;> omega

theorem daysOfMonth_bounds (h : 1 ≤ month) (h' : month ≤ 12) : 1 ≤ daysOfMonth month year ∧ daysOfMonth month year ≤ 31 := by
  have hall : ∀ k : Fin 12, 28 ≤ sDays.getD k 0 ∧ sDays.getD k 0 ≤ 31 ∧ (k.val = 1 → sDays.getD k 0 ≤ 30) := by decide
  obtain ⟨hle, hge, hfeb⟩ := hall ⟨(month - 1).toNat, by omega⟩
  dsimp only at hle hge hfeb
  rw [daysOfMonth_eq h h']
  split_ifs with hleap
  · have := hfeb (by omega)
    omega
  · omega

namespace Datetime

theorem Valid.year_bounds (h : dt.Valid) (hlow : -2 ^ 36 ≤ dt.dayNumber) (hhigh : dt.dayNumber ≤ 2 ^ 36) :
    -2 ^ 30 < dt.year ∧ dt.year < 2 ^ 30 := by
  obtain ⟨hge, hle⟩ := @monthStart_bounds dt.month dt.year h.month.1 h.month.2
  have hday := (@daysOfMonth_bounds dt.month dt.year h.month.1 h.month.2).2
  have := h.day
  rw [dayNumber] at hlow hhigh
  rw [daysBeforeYear] at hge hle
  omega

theorem back_spec (h : 1 ≤ dt.month) (h' : dt.month ≤ 12) (hyear : -2 ^ 30 < dt.year) (hyear' : dt.year < 2 ^ 30) :
    ∃ t, dt.back = some t ∧ (1 ≤ t.month ∧ t.month ≤ 12) ∧ t.SameTime dt ∧
      monthStart dt.month dt.year = monthStart t.month t.year + daysOfMonth t.month t.year := by
  rw [back, int_eq (by omega) (by omega)]
  change ∃ t, (if dt.month - 1 = 0 then _ else _) = some t ∧ _
  by_cases hone : dt.month = 1
  · rw [if_pos (by omega), int_eq (by omega) (by omega)]
    refine ⟨{ dt with month := 12, year := dt.year - 1 }, rfl, ⟨show (1 : ℤ) ≤ 12 by decide, le_rfl⟩, ⟨rfl, rfl, rfl, rfl⟩, ?_⟩
    have hsucc := daysBeforeYear_succ (dt.year - 1)
    rw [Int.sub_add_cancel] at hsucc
    rw [hone, monthStart_january, hsucc]
    exact congrArg _ (daysOfMonth_december _).symm
  · rw [if_neg (by omega)]
    refine ⟨{ dt with month := dt.month - 1 }, rfl, ⟨?_, ?_⟩, ⟨rfl, rfl, rfl, rfl⟩, ?_⟩
    · change 1 ≤ dt.month - 1
      omega
    · change dt.month - 1 ≤ 12
      omega
    · have hsucc := @monthStart_succ (dt.month - 1) dt.year (by omega) (by omega)
      rwa [Int.sub_add_cancel] at hsucc

theorem forth_spec (h : 1 ≤ dt.month) (h' : dt.month ≤ 12) (hyear : -2 ^ 30 < dt.year) (hyear' : dt.year < 2 ^ 30) :
    ∃ t, dt.forth = some t ∧ (1 ≤ t.month ∧ t.month ≤ 12) ∧ t.SameTime dt ∧
      monthStart t.month t.year = monthStart dt.month dt.year + daysOfMonth dt.month dt.year := by
  rw [forth, int_eq (by omega) (by omega)]
  change ∃ t, (if 12 < dt.month + 1 then _ else _) = some t ∧ _
  by_cases htwelve : dt.month = 12
  · rw [if_pos (by omega), int_eq (by omega) (by omega)]
    refine ⟨{ dt with month := 1, year := dt.year + 1 }, rfl, ⟨le_rfl, show (1 : ℤ) ≤ 12 by decide⟩, ⟨rfl, rfl, rfl, rfl⟩, ?_⟩
    change monthStart 1 (dt.year + 1) = _
    rw [monthStart_january, daysBeforeYear_succ, htwelve, daysOfMonth_december]
  · rw [if_neg (by omega)]
    refine ⟨{ dt with month := dt.month + 1 }, rfl, ⟨?_, ?_⟩, ⟨rfl, rfl, rfl, rfl⟩, monthStart_succ h (by omega)⟩
    · change 1 ≤ dt.month + 1
      omega
    · change dt.month + 1 ≤ 12
      omega

end Datetime

/-! ## Dates by their day numbers -/

theorem monthStart_mono (h : 1 ≤ a) (hab : a ≤ b) (h' : b ≤ 12) : monthStart a year ≤ monthStart b year := by
  induction b, hab using Int.leInduction with
  | base => exact le_rfl
  | succ b hab ih =>
    rw [monthStart_succ (h.trans hab) (by omega)]
    have := ih (by omega)
    have := (@daysOfMonth_bounds b year (h.trans hab) (by omega)).1
    omega

theorem monthEnd_le (h : 1 ≤ month) (h' : month ≤ 12) :
    monthStart month year + daysOfMonth month year ≤ daysBeforeYear (year + 1) := by
  rw [daysBeforeYear_succ]
  rcases Int.lt_or_eq_of_le h' with hlt | rfl
  · rw [← monthStart_succ h (by omega)]
    have := @monthStart_mono year (month + 1) 12 (by omega) (by omega) le_rfl
    omega
  · rw [daysOfMonth_december]

namespace Datetime

theorem Valid.lt_of_year (h : dt.Valid) (h' : dt'.Valid) (hlt : dt.year < dt'.year) : dt.dayNumber < dt'.dayNumber := by
  have hend := @monthEnd_le dt.month dt.year h.month.1 h.month.2
  have hstart := (@monthStart_bounds dt'.month dt'.year h'.month.1 h'.month.2).1
  have hyears : daysBeforeYear (dt.year + 1) ≤ daysBeforeYear dt'.year := by
    rw [daysBeforeYear, daysBeforeYear]
    omega
  have := h.day
  have := h'.day
  rw [dayNumber, dayNumber]
  omega

theorem Valid.lt_of_month (h : dt.Valid) (h' : dt'.Valid) (hyear : dt.year = dt'.year) (hlt : dt.month < dt'.month) :
    dt.dayNumber < dt'.dayNumber := by
  have hle := @monthStart_mono dt.year (dt.month + 1) dt'.month (Int.le_add_one h.month.1) hlt h'.month.2
  rw [monthStart_succ h.month.1 (by have := h'.month; omega)] at hle
  have := h.day
  have := h'.day
  rw [dayNumber, dayNumber, ← hyear]
  omega

theorem Valid.eq_of_dayNumber (h : dt.Valid) (h' : dt'.Valid) (hday : dt.dayNumber = dt'.dayNumber) (htime : dt.SameTime dt') :
    dt = dt' := by
  have hyear : dt.year = dt'.year := by
    rcases lt_trichotomy dt.year dt'.year with hlt | heq | hlt
    · exact absurd hday (h.lt_of_year h' hlt).ne
    · exact heq
    · exact absurd hday (h'.lt_of_year h hlt).ne'
  have hmonth : dt.month = dt'.month := by
    rcases lt_trichotomy dt.month dt'.month with hlt | heq | hlt
    · exact absurd hday (h.lt_of_month h' hyear hlt).ne
    · exact heq
    · exact absurd hday (h'.lt_of_month h hyear.symm hlt).ne'
  rw [dayNumber, dayNumber, hyear, hmonth] at hday
  exact Datetime.ext hyear hmonth (Int.add_left_cancel hday) htime.hour htime.min htime.sec htime.ms

theorem SameTime.refl (dt : Datetime) : dt.SameTime dt := ⟨rfl, rfl, rfl, rfl⟩

theorem SameTime.symm (h : dt.SameTime dt') : dt'.SameTime dt := ⟨h.hour.symm, h.min.symm, h.sec.symm, h.ms.symm⟩

theorem SameTime.trans (h : t.SameTime dt) (h' : dt.SameTime dt') : t.SameTime dt' :=
  ⟨h.hour.trans h'.hour, h.min.trans h'.min, h.sec.trans h'.sec, h.ms.trans h'.ms⟩

end Datetime

/-! ## The loops -/

/-- `t` is the valid date with the day number `n`, at the same time as `dt`. -/
structure Reaches (dt : Datetime) (n : ℤ) (t : Datetime) : Prop where
  valid : t.Valid
  time : t.SameTime dt
  day : t.dayNumber = n

theorem Reaches.unique (h : Reaches dt n t) (h' : Reaches dt n u) : t = u :=
  h.valid.eq_of_dayNumber h'.valid (h.day.trans h'.day.symm) (h.time.trans h'.time.symm)

/-- `INT_MAX - 31` -/
def maxDays : ℤ := 2 ^ 31 - 1 - 31

/-- The state of a loop that is on its way to the day number `n`, which is `sub` days off, in the direction `sign`. -/
structure Walking (dt : Datetime) (sign n : ℤ) (s : Datetime × ℤ) : Prop where
  reaches : Reaches dt (n - sign * s.2) s.1
  sub : 0 ≤ s.2 ∧ s.2 ≤ maxDays

theorem Reaches.ofMonth (hmonth : 1 ≤ t.month ∧ t.month ≤ 12) (htime : t.SameTime dt) (hday : 1 ≤ a ∧ a ≤ daysOfMonth t.month t.year)
    (hn : monthStart t.month t.year + a = n) : Reaches dt n { t with day := a } :=
  ⟨⟨hmonth, hday⟩, ⟨htime.hour, htime.min, htime.sec, htime.ms⟩, hn⟩

theorem Walking.bounds {sign : ℤ} (hsign : sign = 1 ∨ sign = -1) (hn : -2 ^ 35 ≤ n ∧ n ≤ 2 ^ 35) (h : Walking dt sign n (t, sub)) :
    (-2 ^ 30 < t.year ∧ t.year < 2 ^ 30) ∧ (0 ≤ sub ∧ sub < 2 ^ 31 - 31) ∧ 1 ≤ t.day ∧ t.day ≤ daysOfMonth t.month t.year ∧
      daysOfMonth t.month t.year ≤ 31 := by
  obtain ⟨⟨hvalid, -, hday⟩, hsub, hmax⟩ := h
  dsimp only at hvalid hday hsub hmax
  rw [maxDays] at hmax
  have hlow : -2 ^ 36 ≤ t.dayNumber := by rcases hsign with rfl | rfl <;> omega
  have hhigh : t.dayNumber ≤ 2 ^ 36 := by rcases hsign with rfl | rfl <;> omega
  exact ⟨hvalid.year_bounds hlow hhigh, ⟨hsub, by omega⟩, hvalid.day.1, hvalid.day.2, (daysOfMonth_bounds hvalid.month.1 hvalid.month.2).2⟩

theorem pastRound_spec (hn : -2 ^ 35 ≤ n ∧ n ≤ 2 ^ 35) {s : Datetime × ℤ} (h : Walking dt (-1) n s) :
    (∃ t, pastRound s = .inr (some t) ∧ Reaches dt n t) ∨ ∃ s', pastRound s = .inl s' ∧ Walking dt (-1) n s' ∧ s'.2 < s.2 := by
  obtain ⟨t, sub⟩ := s
  obtain ⟨hyear, hsub, hfirst, hlast, hdays⟩ := h.bounds (.inr rfl) hn
  obtain ⟨hvalid, htime, hday⟩ := h.reaches
  dsimp only at hvalid htime
  have hmonth : monthStart t.month t.year + t.day = n - -1 * sub := hday
  rw [pastRound]
  by_cases hzero : sub = 0
  · rw [if_pos hzero]
    exact .inl ⟨t, rfl, hvalid, htime, hmonth.trans (by omega)⟩
  rw [if_neg hzero]
  by_cases hlt : sub < t.day
  · rw [if_pos hlt, int_eq (by omega) (by omega)]
    exact .inl ⟨_, rfl, .ofMonth hvalid.month htime ⟨by omega, by omega⟩ (by omega)⟩
  · -- the last day of the month before
    obtain ⟨u, hu, humonth, hutime, hstart⟩ := Datetime.back_spec hvalid.month.1 hvalid.month.2 hyear.1 hyear.2
    have hudays := @daysOfMonth_bounds u.month u.year humonth.1 humonth.2
    rw [if_neg hlt, int_eq (by omega) (by omega), hu]
    refine .inr ⟨_, rfl, ⟨.ofMonth humonth (hutime.trans htime) ⟨hudays.1, le_rfl⟩ ?_, ?_⟩, ?_⟩ <;> dsimp only
    · omega
    · rw [maxDays]
      omega
    · omega

theorem futureRound_spec (hn : -2 ^ 35 ≤ n ∧ n ≤ 2 ^ 35) {s : Datetime × ℤ} (h : Walking dt 1 n s) :
    (∃ t, futureRound s = .inr (some t) ∧ Reaches dt n t) ∨ ∃ s', futureRound s = .inl s' ∧ Walking dt 1 n s' ∧ s'.2 < s.2 := by
  obtain ⟨t, sub⟩ := s
  obtain ⟨hyear, hsub, hfirst, hlast, hdays⟩ := h.bounds (.inl rfl) hn
  obtain ⟨hvalid, htime, hday⟩ := h.reaches
  dsimp only at hvalid htime
  have hmonth : monthStart t.month t.year + t.day = n - 1 * sub := hday
  rw [futureRound]
  by_cases hzero : sub = 0
  · rw [if_pos hzero]
    exact .inl ⟨t, rfl, hvalid, htime, hmonth.trans (by omega)⟩
  rw [if_neg hzero, int_eq (by omega) (by omega)]
  dsimp only
  by_cases hle : t.day + sub ≤ daysOfMonth t.month t.year
  · rw [if_pos hle]
    exact .inl ⟨_, rfl, .ofMonth hvalid.month htime ⟨by omega, hle⟩ (by omega)⟩
  · -- the first day of the next month
    obtain ⟨u, hu, humonth, hutime, hstart⟩ := Datetime.forth_spec hvalid.month.1 hvalid.month.2 hyear.1 hyear.2
    have hudays := @daysOfMonth_bounds u.month u.year humonth.1 humonth.2
    rw [if_neg hle, int_eq (n := daysOfMonth t.month t.year - t.day + 1) (by omega) (by omega)]
    dsimp only [bind, Option.bind]
    rw [int_eq (by omega) (by omega), hu]
    refine .inr ⟨_, rfl, ⟨.ofMonth humonth (hutime.trans htime) ⟨le_rfl, hudays.1⟩ ?_, ?_⟩, ?_⟩ <;> dsimp only
    · omega
    · rw [maxDays]
      omega
    · omega

theorem walk_reaches {round : Datetime × ℤ → Datetime × ℤ ⊕ Option Datetime} {sign : ℤ}
    (hround : ∀ s, Walking dt sign n s →
      (∃ t, round s = .inr (some t) ∧ Reaches dt n t) ∨ ∃ s', round s = .inl s' ∧ Walking dt sign n s' ∧ s'.2 < s.2)
    {s : Datetime × ℤ} (h : Walking dt sign n s) : ∃ t, (∃ fuel, Loop.run round fuel s = some (some t)) ∧ Reaches dt n t := by
  obtain ⟨r, hrun, t, rfl, ht⟩ := Loop.run_of_measure round (Walking dt sign n) (fun r => ∃ t, r = some t ∧ Reaches dt n t)
    (fun s => s.2.toNat)
    (fun s s' hs hs' => by
      obtain ⟨t, ht, -⟩ | ⟨u, hu, hwalk, hlt⟩ := hround s hs
      · cases hs'.symm.trans ht
      · cases hs'.symm.trans hu
        have := hwalk.sub.1
        exact ⟨hwalk, by omega⟩)
    (fun s r hs hr => by
      obtain ⟨t, ht, hreaches⟩ | ⟨u, hu, -⟩ := hround s hs
      · cases hr.symm.trans ht
        exact ⟨t, rfl, hreaches⟩
      · cases hr.symm.trans hu)
    h (Nat.lt_succ_self _)
  exact ⟨t, ⟨_, hrun⟩, ht⟩

theorem datetimePast_reaches (h : dt.Valid) (hlow : -2 ^ 34 ≤ dt.dayNumber) (hhigh : dt.dayNumber ≤ 2 ^ 34) (h0 : 0 ≤ days)
    (hmax : days ≤ maxDays) : ∃ t, DatetimePast dt days t ∧ Reaches dt (dt.dayNumber - days) t := by
  have hbound := hmax
  rw [maxDays] at hbound
  exact walk_reaches (fun s hs => pastRound_spec ⟨by omega, by omega⟩ hs) ⟨⟨h, .refl dt, by dsimp only; omega⟩, h0, hmax⟩

theorem datetimeFuture_reaches (h : dt.Valid) (hlow : -2 ^ 34 ≤ dt.dayNumber) (hhigh : dt.dayNumber ≤ 2 ^ 34) (h0 : 0 ≤ days)
    (hmax : days ≤ maxDays) : ∃ t, DatetimeFuture dt days t ∧ Reaches dt (dt.dayNumber + days) t := by
  have hbound := hmax
  rw [maxDays] at hbound
  exact walk_reaches (fun s hs => futureRound_spec ⟨by omega, by omega⟩ hs) ⟨⟨h, .refl dt, by dsimp only; omega⟩, h0, hmax⟩

theorem Datetime.Valid.dayNumber_bounds (h : dt.Valid) (hlow : -10 ^ 6 ≤ dt.year) (hhigh : dt.year ≤ 10 ^ 6) :
    -2 ^ 33 ≤ dt.dayNumber ∧ dt.dayNumber ≤ 2 ^ 33 := by
  obtain ⟨hge, hle⟩ := @monthStart_bounds dt.month dt.year h.month.1 h.month.2
  have hlast := (@daysOfMonth_bounds dt.month dt.year h.month.1 h.month.2).2
  have hday := h.day
  rw [daysBeforeYear] at hge hle
  rw [dayNumber]
  omega

/-- `datetime_future` and `datetime_past` return, for a date of a year of at most seven digits, the date that is the days away;
they undo each other, and two steps forward are one. -/
theorem datetime_arithmetic (h : dt.Valid) (hlow : -10 ^ 6 ≤ dt.year) (hhigh : dt.year ≤ 10 ^ 6) :
    (∀ days, 0 ≤ days → days ≤ maxDays →
      (∃ t, DatetimeFuture dt days t ∧ Reaches dt (dt.dayNumber + days) t ∧ DatetimePast t days dt) ∧
      ∃ t, DatetimePast dt days t ∧ Reaches dt (dt.dayNumber - days) t ∧ DatetimeFuture t days dt) ∧
    ∀ a b, 0 ≤ a → 0 ≤ b → a + b ≤ maxDays →
      ∃ t u, DatetimeFuture dt a t ∧ DatetimeFuture t b u ∧ DatetimeFuture dt (a + b) u := by
  obtain ⟨hge, hle⟩ := h.dayNumber_bounds hlow hhigh
  have hmaxDays : maxDays ≤ 2 ^ 31 := by decide
  refine ⟨fun days h0 hmax => ⟨?_, ?_⟩, fun a b ha hb hmax => ?_⟩
  · obtain ⟨t, hfuture, ht⟩ := datetimeFuture_reaches h (by omega) (by omega) h0 hmax
    have hday := ht.day
    obtain ⟨u, hpast, hu⟩ := datetimePast_reaches ht.valid (by omega) (by omega) h0 hmax
    have hback : u = dt := hu.valid.eq_of_dayNumber h (by rw [hu.day, hday, Int.add_sub_cancel]) (hu.time.trans ht.time)
    exact ⟨t, hfuture, ht, hback ▸ hpast⟩
  · obtain ⟨t, hpast, ht⟩ := datetimePast_reaches h (by omega) (by omega) h0 hmax
    have hday := ht.day
    obtain ⟨u, hfuture, hu⟩ := datetimeFuture_reaches ht.valid (by omega) (by omega) h0 hmax
    have hback : u = dt := hu.valid.eq_of_dayNumber h (by rw [hu.day, hday, Int.sub_add_cancel]) (hu.time.trans ht.time)
    exact ⟨t, hpast, ht, hback ▸ hfuture⟩
  · obtain ⟨t, hfirst, ht⟩ := datetimeFuture_reaches h (by omega) (by omega) ha (by omega)
    have hday := ht.day
    obtain ⟨u, hsecond, hu⟩ := datetimeFuture_reaches ht.valid (by omega) (by omega) hb (by omega)
    obtain ⟨v, hboth, hv⟩ := datetimeFuture_reaches h (by omega) (by omega) (Int.add_nonneg ha hb) hmax
    have hsame : v = u := hv.unique ⟨hu.valid, hu.time.trans ht.time, by rw [hu.day, hday, Int.add_assoc]⟩
    exact ⟨t, u, hfirst, hsecond, hsame ▸ hboth⟩

/-- Over the leap day of 2024. -/
theorem datetime_arithmetic_sample :
    ∃ t, DatetimeFuture ⟨2024, 2, 28, 12, 30, 0, 0⟩ 2 t ∧
      Reaches ⟨2024, 2, 28, 12, 30, 0, 0⟩ (Datetime.dayNumber ⟨2024, 2, 28, 12, 30, 0, 0⟩ + 2) t ∧
      DatetimePast t 2 ⟨2024, 2, 28, 12, 30, 0, 0⟩ := by
  have hvalid : Datetime.Valid ⟨2024, 2, 28, 12, 30, 0, 0⟩ := ⟨⟨by decide, by decide⟩, by decide, by decide⟩
  exact ((datetime_arithmetic hvalid (by decide) (by decide)).1 2 (by decide) (by decide)).1

end Yjc.Base
