import Yjc.Base.Localtime
import Yjc.Lib.Recurrence

/-! `cron_next_timeout`, in `base/datetime.c`: the fields of the present time are overwritten with those that are given, and if the time they
make has passed, a period is added. -/

namespace Yjc.Base

inductive CronPeriod
  | minutely
  | hourly
  | daily
  | weekly
  | monthly
  | yearly

/-- The arguments, in the order of the documentation. -/
structure Cron where
  minute : ℤ
  hour : ℤ
  day : ℤ
  week : ℤ
  month : ℤ

namespace Cron

def period (c : Cron) : CronPeriod :=
  if 0 ≤ c.week then .weekly
  else if 0 < c.day then if 0 < c.month then .yearly else .monthly
  else if 0 ≤ c.hour then .daily
  else if 0 ≤ c.minute then .hourly
  else .minutely

def fields (c : Cron) (tm : Tm) : Tm where
  sec := 0
  min := if 0 ≤ c.minute then c.minute else tm.min
  hour := if 0 ≤ c.hour then c.hour else tm.hour
  mday := if 0 ≤ c.week then tm.mday else if 0 < c.day then c.day else tm.mday
  mon := if 0 ≤ c.week then tm.mon else if 0 < c.day ∧ 0 < c.month then c.month - 1 else tm.mon
  year := tm.year
  wday := tm.wday

end Cron

namespace Tm

/-- `if (++tm.tm_mon == 12) { tm.tm_mon = 0; ++tm.tm_year; }` -/
def nextMonth (tm : Tm) : Tm := if tm.mon + 1 = 12 then { tm with mon := 0, year := tm.year + 1 } else { tm with mon := tm.mon + 1 }

def nextYear (tm : Tm) : Tm := { tm with year := tm.year + 1 }

end Tm

def cronNextTimeout (tt : ℤ) (c : Cron) : ℤ :=
  let (ttRound, tm) := mktime (c.fields (localtime tt))
  let ttRound := if 0 ≤ c.week then ttRound + (c.week - tm.wday) * 86400 else ttRound
  if tt < ttRound then ttRound
  else match c.period with
    | .minutely => ttRound + 60
    | .hourly => ttRound + 3600
    | .daily => ttRound + 86400
    | .weekly => ttRound + 604800
    | .monthly => (mktime tm.nextMonth).1
    | .yearly => (mktime tm.nextYear).1

namespace Cron

/-- The documented forms, with each field in its range, and a day that the month has in some year. -/
inductive Documented : Cron → Prop
  | minutely : Documented ⟨-1, -1, -1, -1, -1⟩
  | hourly (minute : ℤ) (hminute : 0 ≤ minute ∧ minute ≤ 59) : Documented ⟨minute, -1, -1, -1, -1⟩
  | daily (minute hour : ℤ) (hminute : 0 ≤ minute ∧ minute ≤ 59) (hhour : 0 ≤ hour ∧ hour ≤ 23) : Documented ⟨minute, hour, -1, -1, -1⟩
  | monthly (minute hour day : ℤ) (hminute : 0 ≤ minute ∧ minute ≤ 59) (hhour : 0 ≤ hour ∧ hour ≤ 23) (hday : 1 ≤ day ∧ day ≤ 31) :
    Documented ⟨minute, hour, day, -1, -1⟩
  | weekly (minute hour week : ℤ) (hminute : 0 ≤ minute ∧ minute ≤ 59) (hhour : 0 ≤ hour ∧ hour ≤ 23) (hweek : 0 ≤ week ∧ week ≤ 6) :
    Documented ⟨minute, hour, -1, week, -1⟩
  | yearly (minute hour day month : ℤ) (hminute : 0 ≤ minute ∧ minute ≤ 59) (hhour : 0 ≤ hour ∧ hour ≤ 23)
    (hday : 1 ≤ day ∧ ∃ year, day ≤ daysOfMonth month year) (hmonth : 1 ≤ month ∧ month ≤ 12) : Documented ⟨minute, hour, day, -1, month⟩

/-- A time with second 0 and every field that is given. -/
structure Matches (c : Cron) (t : ℤ) : Prop where
  sec : (localtime t).sec = 0
  minute : 0 ≤ c.minute → (localtime t).min = c.minute
  hour : 0 ≤ c.hour → (localtime t).hour = c.hour
  day : 0 < c.day → (localtime t).mday = c.day
  week : 0 ≤ c.week → (localtime t).wday = c.week
  month : 0 < c.month → (localtime t).mon + 1 = c.month

end Cron

/-- The seconds since the epoch at a time of a day of a month. -/
def monthSeconds (k day hour minute : ℤ) : ℤ := (monthBegin k + day - epoch) * 86400 + hour * 3600 + minute * 60

namespace Cron

/-- The month of a given day: the given one of the present year, or the present one. -/
def presentMonth (c : Cron) (tt : ℤ) : ℤ :=
  if 0 < c.month then 12 * ((localtime tt).year + 1900) + (c.month - 1) else 12 * ((localtime tt).year + 1900) + (localtime tt).mon

/-- The day is in that month, and if it has passed there also in the next one, which is a month or a year later. -/
def DaysExist (c : Cron) (tt : ℤ) : Prop :=
  c.day ≤ monthLength (c.presentMonth tt) ∧
    (tt < monthSeconds (c.presentMonth tt) c.day c.hour c.minute ∨
      c.day ≤ monthLength (c.presentMonth tt + if 0 < c.month then 12 else 1))

end Cron

/-! ## Periods of seconds -/

variable {tt t s k d day hour minute month week r : ℤ} {tm : Tm} {c : Cron}

theorem fields_seconds (tt : ℤ) (h : 0 ≤ c.week ∨ c.day ≤ 0) :
    (c.fields (localtime tt)).seconds =
      tt / 86400 * 86400 + (c.fields (localtime tt)).hour * 3600 + (c.fields (localtime tt)).min * 60 := by
  obtain ⟨hvalid, hseconds, _⟩ := localtime_spec tt
  have hhour := hvalid.hour
  have hmin := hvalid.min
  have hsec := hvalid.sec
  have hmday : (c.fields (localtime tt)).mday = (localtime tt).mday := by
    rw [Cron.fields]
    dsimp only
    split_ifs <;> omega
  have hmonth : (c.fields (localtime tt)).month = (localtime tt).month := by
    rw [Cron.fields, Tm.month, Tm.month]
    dsimp only
    split_ifs <;> omega
  rw [Tm.seconds] at hseconds ⊢
  rw [hmday, hmonth]
  change _ + 0 = _
  omega

theorem not_given : ¬(0 : ℤ) ≤ -1 := by decide

theorem not_given' : ¬(0 : ℤ) < -1 := by decide

theorem isLeast_of_emod {p a off : ℤ} (hp : 0 < p) (ha : 0 ≤ a) (ha' : a < p) (hmatch : ∀ t, c.Matches t ↔ (t + off) % p = a)
    (hr : r = (tt + off) / p * p + a - off) (hnext : cronNextTimeout tt c = if tt < r then r else r + p) :
    IsLeast {t | tt < t ∧ c.Matches t} (cronNextTimeout tt c) := by
  -- a form whose times are a residue class, and whose candidate is the time of the class in the present period
  rw [hnext]
  simp only [hmatch]
  exact isLeast_emod hp ha ha' hr

theorem matches_time (minute hour week t : ℤ) :
    Cron.Matches ⟨minute, hour, -1, week, -1⟩ t ↔
      t % 60 = 0 ∧ (0 ≤ minute → t / 60 % 60 = minute) ∧ (0 ≤ hour → t / 3600 % 24 = hour) ∧ (0 ≤ week → (t / 86400 + epoch) % 7 = week) := by
  refine ⟨fun h => ⟨h.sec, h.minute, h.hour, h.week⟩, fun h => ⟨h.1, h.2.1, h.2.2.1, ?_, h.2.2.2, ?_⟩⟩
  · exact fun h => absurd h not_given'
  · exact fun h => absurd h not_given'

theorem minutely_isLeast (tt : ℤ) :
    IsLeast {t | tt < t ∧ Cron.Matches ⟨-1, -1, -1, -1, -1⟩ t} (cronNextTimeout tt ⟨-1, -1, -1, -1, -1⟩) := by
  refine @isLeast_of_emod tt (Cron.fields ⟨-1, -1, -1, -1, -1⟩ (localtime tt)).seconds _ 60 0 0 (by decide) (by decide) (by decide) ?_ ?_ rfl
  · intro t
    rw [matches_time]
    omega
  · rw [fields_seconds tt (.inr (by decide))]
    change tt / 86400 * 86400 + tt / 3600 % 24 * 3600 + tt / 60 % 60 * 60 = _
    omega

theorem hourly_isLeast (tt : ℤ) (hminute : 0 ≤ minute ∧ minute ≤ 59) :
    IsLeast {t | tt < t ∧ Cron.Matches ⟨minute, -1, -1, -1, -1⟩ t} (cronNextTimeout tt ⟨minute, -1, -1, -1, -1⟩) := by
  refine @isLeast_of_emod tt (Cron.fields ⟨minute, -1, -1, -1, -1⟩ (localtime tt)).seconds _ 3600 (minute * 60) 0 (by decide) (by omega)
    (by omega) ?_ ?_ ?_
  · intro t
    rw [matches_time]
    omega
  · rw [fields_seconds tt (.inr (by decide : (-1 : ℤ) ≤ 0))]
    change tt / 86400 * 86400 + tt / 3600 % 24 * 3600 + (if 0 ≤ minute then minute else _) * 60 = _
    rw [if_pos hminute.1]
    omega
  · have hperiod : Cron.period ⟨minute, -1, -1, -1, -1⟩ = .hourly := if_pos hminute.1
    rw [cronNextTimeout, hperiod]
    rfl

theorem daily_isLeast (tt : ℤ) (hminute : 0 ≤ minute ∧ minute ≤ 59) (hhour : 0 ≤ hour ∧ hour ≤ 23) :
    IsLeast {t | tt < t ∧ Cron.Matches ⟨minute, hour, -1, -1, -1⟩ t} (cronNextTimeout tt ⟨minute, hour, -1, -1, -1⟩) := by
  refine @isLeast_of_emod tt (Cron.fields ⟨minute, hour, -1, -1, -1⟩ (localtime tt)).seconds _ 86400 (hour * 3600 + minute * 60) 0 (by decide)
    (by omega) (by omega) ?_ ?_ ?_
  · intro t
    rw [matches_time]
    omega
  · rw [fields_seconds tt (.inr (by decide : (-1 : ℤ) ≤ 0))]
    change tt / 86400 * 86400 + (if 0 ≤ hour then hour else _) * 3600 + (if 0 ≤ minute then minute else _) * 60 = _
    rw [if_pos hminute.1, if_pos hhour.1]
    omega
  · have hperiod : Cron.period ⟨minute, hour, -1, -1, -1⟩ = .daily := if_pos hhour.1
    rw [cronNextTimeout, hperiod]
    rfl

theorem weekly_isLeast (tt : ℤ) (hminute : 0 ≤ minute ∧ minute ≤ 59) (hhour : 0 ≤ hour ∧ hour ≤ 23) (hweek : 0 ≤ week ∧ week ≤ 6) :
    IsLeast {t | tt < t ∧ Cron.Matches ⟨minute, hour, -1, week, -1⟩ t} (cronNextTimeout tt ⟨minute, hour, -1, week, -1⟩) := by
  have hseconds : (Cron.fields ⟨minute, hour, -1, week, -1⟩ (localtime tt)).seconds = tt / 86400 * 86400 + hour * 3600 + minute * 60 := by
    rw [fields_seconds tt (.inl hweek.1)]
    change tt / 86400 * 86400 + (if 0 ≤ hour then hour else _) * 3600 + (if 0 ≤ minute then minute else _) * 60 = _
    rw [if_pos hminute.1, if_pos hhour.1]
  refine @isLeast_of_emod tt ((tt + epoch * 86400) / 604800 * 604800 + (week * 86400 + hour * 3600 + minute * 60) - epoch * 86400) _ 604800
    (week * 86400 + hour * 3600 + minute * 60) (epoch * 86400) (by decide) (by omega) (by omega) ?_ rfl ?_
  · intro t
    rw [matches_time]
    omega
  · have hperiod : Cron.period ⟨minute, hour, -1, week, -1⟩ = .weekly := if_pos hweek.1
    have hround : tt / 86400 * 86400 + hour * 3600 + minute * 60 +
        (week - ((tt / 86400 * 86400 + hour * 3600 + minute * 60) / 86400 + epoch) % 7) * 86400 =
          (tt + epoch * 86400) / 604800 * 604800 + (week * 86400 + hour * 3600 + minute * 60) - epoch * 86400 := by omega
    rw [← hround, cronNextTimeout, hperiod]
    dsimp only [mktime]
    rw [if_pos hweek.1, hseconds]
    rfl

/-! ## Months and years -/

theorem localtime_monthSeconds (hminute : 0 ≤ minute ∧ minute ≤ 59) (hhour : 0 ≤ hour ∧ hour ≤ 23) (hday : 1 ≤ day ∧ day ≤ monthLength k) :
    (localtime (monthSeconds k day hour minute)).sec = 0 ∧ (localtime (monthSeconds k day hour minute)).min = minute ∧
      (localtime (monthSeconds k day hour minute)).hour = hour ∧ (localtime (monthSeconds k day hour minute)).mday = day ∧
      (localtime (monthSeconds k day hour minute)).month = k := by
  have hmonth : (⟨0, minute, hour, day, k % 12, k / 12 - 1900, 0⟩ : Tm).month = k := by
    rw [Tm.month]
    dsimp only
    omega
  have hseconds : (⟨0, minute, hour, day, k % 12, k / 12 - 1900, 0⟩ : Tm).seconds = monthSeconds k day hour minute := by
    rw [Tm.seconds, hmonth, Int.add_zero]
    rfl
  have hvalid : (⟨0, minute, hour, day, k % 12, k / 12 - 1900, 0⟩ : Tm).Valid :=
    ⟨⟨Int.le_refl 0, (by decide : (0 : ℤ) < 60)⟩, ⟨hminute.1, Int.lt_add_one_of_le hminute.2⟩, ⟨hhour.1, Int.lt_add_one_of_le hhour.2⟩,
      by rw [hmonth]; exact hday⟩
  have hfields := localtime_seconds hvalid
  rw [hseconds, hmonth] at hfields
  exact hfields

theorem monthSeconds_overflow (k day hour minute : ℤ) :
    monthSeconds k day hour minute = monthSeconds (k + 1) (day - monthLength k) hour minute := by
  -- a day that a month does not have is one of the next month
  rw [monthSeconds, monthSeconds, monthBegin_succ]
  omega

theorem localtime_overflow (hminute : 0 ≤ minute ∧ minute ≤ 59) (hhour : 0 ≤ hour ∧ hour ≤ 23) (hday : ¬day ≤ monthLength k)
    (hday' : day ≤ 31) :
    (localtime (monthSeconds k day hour minute)).sec = 0 ∧ (localtime (monthSeconds k day hour minute)).min = minute ∧
      (localtime (monthSeconds k day hour minute)).hour = hour ∧ (localtime (monthSeconds k day hour minute)).mday = day - monthLength k ∧
      (localtime (monthSeconds k day hour minute)).month = k + 1 := by
  have := (monthLength_bounds k).1
  have := (monthLength_bounds (k + 1)).1
  rw [monthSeconds_overflow]
  exact localtime_monthSeconds hminute hhour ⟨by omega, by omega⟩

theorem eq_monthSeconds (t : ℤ) (hsec : (localtime t).sec = 0) :
    t = monthSeconds (localtime t).month (localtime t).mday (localtime t).hour (localtime t).min := by
  have hseconds := (localtime_spec t).2.1
  rw [Tm.seconds, hsec, Int.add_zero] at hseconds
  exact hseconds.symm

theorem seconds_eq (hsec : tm.sec = 0) : tm.seconds = monthSeconds tm.month tm.mday tm.hour tm.min := by
  rw [Tm.seconds, hsec, Int.add_zero]
  rfl

theorem Tm.seconds_nextMonth (hsec : tm.sec = 0) : tm.nextMonth.seconds = monthSeconds (tm.month + 1) tm.mday tm.hour tm.min := by
  have hmonth : tm.nextMonth.month = tm.month + 1 := by
    rw [Tm.nextMonth, Tm.month, Tm.month]
    split_ifs
    · dsimp only
      omega
    · dsimp only
      omega
  have hrest : tm.nextMonth.sec = 0 ∧ tm.nextMonth.mday = tm.mday ∧ tm.nextMonth.hour = tm.hour ∧ tm.nextMonth.min = tm.min := by
    rw [Tm.nextMonth]
    split_ifs
    · exact ⟨hsec, rfl, rfl, rfl⟩
    · exact ⟨hsec, rfl, rfl, rfl⟩
  obtain ⟨hsec', hmday, hhour, hmin⟩ := hrest
  rw [seconds_eq hsec', hmonth, hmday, hhour, hmin]

theorem Tm.seconds_nextYear (hsec : tm.sec = 0) : tm.nextYear.seconds = monthSeconds (tm.month + 12) tm.mday tm.hour tm.min := by
  have hmonth : tm.nextYear.month = tm.month + 12 := by
    rw [Tm.nextYear, Tm.month, Tm.month]
    dsimp only
    omega
  rw [@seconds_eq tm.nextYear hsec, hmonth]
  rfl

theorem recurs_monthly (hminute : 0 ≤ minute ∧ minute ≤ 59) (hhour : 0 ≤ hour ∧ hour ≤ 23) (hday : 1 ≤ day) :
    Recurs (fun t => (localtime t).month) (fun k => day ≤ monthLength k) (fun k => monthSeconds k day hour minute)
      (Cron.Matches ⟨minute, hour, day, -1, -1⟩) := by
  refine ⟨fun s t hst => month_mono hst, fun k hk => (localtime_monthSeconds hminute hhour ⟨hday, hk⟩).2.2.2.2, fun t => ?_⟩
  constructor
  · intro h
    have hmday := (localtime_spec t).1.mday
    rw [h.day hday] at hmday
    have ht := eq_monthSeconds t h.sec
    rw [h.day hday, h.hour hhour.1, h.minute hminute.1] at ht
    exact ⟨hmday.2, ht⟩
  · intro h
    obtain ⟨hk, ht⟩ := h
    obtain ⟨hsec, hmin, hhour', hmday, _⟩ := localtime_monthSeconds hminute hhour ⟨hday, hk⟩
    rw [← ht] at hsec hmin hhour' hmday
    exact ⟨hsec, fun _ => hmin, fun _ => hhour', fun _ => hmday, fun h => absurd h not_given, fun h => absurd h not_given'⟩

theorem recurs_yearly (hminute : 0 ≤ minute ∧ minute ≤ 59) (hhour : 0 ≤ hour ∧ hour ≤ 23) (hday : 1 ≤ day) (hmonth : 1 ≤ month ∧ month ≤ 12) :
    Recurs (fun t => (localtime t).month / 12) (fun k => day ≤ monthLength (12 * k + (month - 1)))
      (fun k => monthSeconds (12 * k + (month - 1)) day hour minute) (Cron.Matches ⟨minute, hour, day, -1, month⟩) := by
  refine ⟨fun s t hst => Int.ediv_le_ediv (by decide) (month_mono hst), fun k hk => ?_, fun t => ?_⟩
  · rw [(localtime_monthSeconds hminute hhour ⟨hday, hk⟩).2.2.2.2]
    omega
  · obtain ⟨hvalid, _, hmon, hmon'⟩ := localtime_spec t
    have hindex : (localtime t).month = 12 * ((localtime t).year + 1900) + (localtime t).mon := rfl
    constructor
    · intro h
      have hk : 12 * ((localtime t).month / 12) + (month - 1) = (localtime t).month := by
        have := h.month hmonth.1
        dsimp only at this
        omega
      have hmday := hvalid.mday
      rw [h.day hday] at hmday
      have ht := eq_monthSeconds t h.sec
      rw [h.day hday, h.hour hhour.1, h.minute hminute.1] at ht
      rw [hk]
      exact ⟨hmday.2, ht⟩
    · intro h
      obtain ⟨hk, ht⟩ := h
      obtain ⟨hsec, hmin, hhour', hmday, hmonth'⟩ := localtime_monthSeconds hminute hhour ⟨hday, hk⟩
      rw [← ht] at hsec hmin hhour' hmday hmonth'
      refine ⟨hsec, fun _ => hmin, fun _ => hhour', fun _ => hmday, fun h => absurd h not_given, fun _ => ?_⟩
      dsimp only
      omega

theorem not_matches (hday : 0 < c.day) (h : (localtime r).mday ≠ c.day) : ¬c.Matches r := fun hmatches => h (hmatches.day hday)

theorem mday_overflow (hminute : 0 ≤ minute ∧ minute ≤ 59) (hhour : 0 ≤ hour ∧ hour ≤ 23) (hday : ¬day ≤ monthLength k) (hday' : day ≤ 31) :
    (localtime (monthSeconds k day hour minute)).mday ≠ day := by
  have := (monthLength_bounds k).1
  rw [(localtime_overflow hminute hhour hday hday').2.2.2.1]
  omega

theorem seconds_next {j : ℤ} {next : Tm → Tm}
    (hnext : ∀ tm : Tm, tm.sec = 0 → (next tm).seconds = monthSeconds (tm.month + j) tm.mday tm.hour tm.min)
    (hminute : 0 ≤ minute ∧ minute ≤ 59) (hhour : 0 ≤ hour ∧ hour ≤ 23) (hday : 1 ≤ day ∧ day ≤ monthLength k) :
    (next (localtime (monthSeconds k day hour minute))).seconds = monthSeconds (k + j) day hour minute := by
  -- the candidate of the next period, a number of months later, is made from the fields of the candidate of this one
  obtain ⟨hsec, hmin, hhour', hmday, hmonth⟩ := localtime_monthSeconds hminute hhour hday
  rw [hnext _ hsec, hmin, hhour', hmday, hmonth]

theorem mday_next {j : ℤ} {next : Tm → Tm}
    (hnext : ∀ tm : Tm, tm.sec = 0 → (next tm).seconds = monthSeconds (tm.month + j) tm.mday tm.hour tm.min)
    (hminute : 0 ≤ minute ∧ minute ≤ 59) (hhour : 0 ≤ hour ∧ hour ≤ 23) (hday : ¬day ≤ monthLength k) (hday' : day ≤ 31) :
    (localtime (next (localtime (monthSeconds k day hour minute))).seconds).mday ≠ day := by
  -- once a day has been moved to another month it is one of the first days of every month
  obtain ⟨hsec, hmin, hhour', hmday, hmonth⟩ := localtime_overflow hminute hhour hday hday'
  have := (monthLength_bounds k).1
  have := (monthLength_bounds (k + 1 + j)).1
  rw [hnext _ hsec, hmin, hhour', hmday, hmonth, (localtime_monthSeconds hminute hhour ⟨by omega, by omega⟩).2.2.2.1]
  omega

theorem cronNextTimeout_monthly (tt : ℤ) (hminute : 0 ≤ minute ∧ minute ≤ 59) (hhour : 0 ≤ hour ∧ hour ≤ 23) (hday : 1 ≤ day) :
    cronNextTimeout tt ⟨minute, hour, day, -1, -1⟩ =
      if tt < monthSeconds (localtime tt).month day hour minute then monthSeconds (localtime tt).month day hour minute
      else (localtime (monthSeconds (localtime tt).month day hour minute)).nextMonth.seconds := by
  have hperiod : Cron.period ⟨minute, hour, day, -1, -1⟩ = .monthly := if_pos hday
  have hfields : (Cron.fields ⟨minute, hour, day, -1, -1⟩ (localtime tt)).seconds = monthSeconds (localtime tt).month day hour minute := by
    rw [seconds_eq rfl]
    change monthSeconds _ (if 0 < day then day else _) (if 0 ≤ hour then hour else _) (if 0 ≤ minute then minute else _) = _
    rw [if_pos (Int.lt_of_add_one_le hday), if_pos hhour.1, if_pos hminute.1, Tm.month]
    change monthSeconds (12 * _ + if 0 < day ∧ (0 : ℤ) < -1 then _ else _) day hour minute = _
    rw [if_neg fun h => not_given' h.2]
    rfl
  rw [cronNextTimeout, hperiod]
  dsimp only [mktime]
  rw [hfields]
  rfl

theorem cronNextTimeout_yearly (tt : ℤ) (hminute : 0 ≤ minute ∧ minute ≤ 59) (hhour : 0 ≤ hour ∧ hour ≤ 23) (hday : 1 ≤ day)
    (hmonth : 1 ≤ month) :
    cronNextTimeout tt ⟨minute, hour, day, -1, month⟩ =
      if tt < monthSeconds (12 * ((localtime tt).year + 1900) + (month - 1)) day hour minute then
        monthSeconds (12 * ((localtime tt).year + 1900) + (month - 1)) day hour minute
      else (localtime (monthSeconds (12 * ((localtime tt).year + 1900) + (month - 1)) day hour minute)).nextYear.seconds := by
  have hperiod : Cron.period ⟨minute, hour, day, -1, month⟩ = .yearly := (if_pos hday).trans (if_pos hmonth)
  have hfields : (Cron.fields ⟨minute, hour, day, -1, month⟩ (localtime tt)).seconds =
      monthSeconds (12 * ((localtime tt).year + 1900) + (month - 1)) day hour minute := by
    rw [seconds_eq rfl]
    change monthSeconds _ (if 0 < day then day else _) (if 0 ≤ hour then hour else _) (if 0 ≤ minute then minute else _) = _
    rw [if_pos (Int.lt_of_add_one_le hday), if_pos hhour.1, if_pos hminute.1, Tm.month]
    change monthSeconds (12 * _ + if 0 < day ∧ 0 < month then month - 1 else _) day hour minute = _
    rw [if_pos ⟨hday, hmonth⟩]
    rfl
  rw [cronNextTimeout, hperiod]
  dsimp only [mktime]
  rw [hfields]
  rfl

theorem monthly_isLeast_iff (tt : ℤ) (hminute : 0 ≤ minute ∧ minute ≤ 59) (hhour : 0 ≤ hour ∧ hour ≤ 23) (hday : 1 ≤ day ∧ day ≤ 31) :
    IsLeast {t | tt < t ∧ Cron.Matches ⟨minute, hour, day, -1, -1⟩ t} (cronNextTimeout tt ⟨minute, hour, day, -1, -1⟩) ↔
      Cron.DaysExist ⟨minute, hour, day, -1, -1⟩ tt := by
  have hmatches : ∀ r, (localtime r).mday ≠ day → ¬Cron.Matches ⟨minute, hour, day, -1, -1⟩ r := fun r =>
    @not_matches r ⟨minute, hour, day, -1, -1⟩ hday.1
  rw [cronNextTimeout_monthly tt hminute hhour hday.1]
  refine (recurs_monthly hminute hhour hday.1).isLeast_iff (fun hlt => if_pos hlt) (fun hk hle => ?_) (fun hk => hmatches _ ?_)
    (fun k hk => hmatches _ (mday_overflow hminute hhour hk hday.2))
  · rw [if_neg (not_lt.mpr hle)]
    exact seconds_next (fun _ => Tm.seconds_nextMonth) hminute hhour ⟨hday.1, hk⟩
  · split_ifs
    · exact mday_overflow hminute hhour hk hday.2
    · exact mday_next (fun _ => Tm.seconds_nextMonth) hminute hhour hk hday.2

theorem yearly_isLeast_iff (tt : ℤ) (hminute : 0 ≤ minute ∧ minute ≤ 59) (hhour : 0 ≤ hour ∧ hour ≤ 23) (hday : 1 ≤ day ∧ day ≤ 31)
    (hmonth : 1 ≤ month ∧ month ≤ 12) :
    IsLeast {t | tt < t ∧ Cron.Matches ⟨minute, hour, day, -1, month⟩ t} (cronNextTimeout tt ⟨minute, hour, day, -1, month⟩) ↔
      Cron.DaysExist ⟨minute, hour, day, -1, month⟩ tt := by
  have hmatches : ∀ r, (localtime r).mday ≠ day → ¬Cron.Matches ⟨minute, hour, day, -1, month⟩ r := fun r =>
    @not_matches r ⟨minute, hour, day, -1, month⟩ hday.1
  have hyear : (localtime tt).month / 12 = (localtime tt).year + 1900 := by
    obtain ⟨_, _, hmon, hmon'⟩ := localtime_spec tt
    rw [Tm.month]
    omega
  have hnext : 12 * ((localtime tt).year + 1900) + (month - 1) + 12 = 12 * ((localtime tt).year + 1900 + 1) + (month - 1) := by omega
  have hiff := (recurs_yearly hminute hhour hday.1 hmonth).isLeast_iff (t := tt) (r := cronNextTimeout tt ⟨minute, hour, day, -1, month⟩)
  rw [hyear, cronNextTimeout_yearly tt hminute hhour hday.1 hmonth.1] at hiff
  have hgiven : 0 < (⟨minute, hour, day, -1, month⟩ : Cron).month := hmonth.1
  rw [cronNextTimeout_yearly tt hminute hhour hday.1 hmonth.1, Cron.DaysExist, Cron.presentMonth, if_pos hgiven, if_pos hgiven]
  dsimp only
  rw [hnext]
  refine hiff (fun hlt => if_pos hlt) (fun hk hle => ?_) (fun hk => hmatches _ ?_)
    (fun k hk => hmatches _ (mday_overflow hminute hhour hk hday.2))
  · rw [if_neg (not_lt.mpr hle), ← hnext]
    exact seconds_next (fun _ => Tm.seconds_nextYear) hminute hhour ⟨hday.1, hk⟩
  · split_ifs
    · exact mday_overflow hminute hhour hk hday.2
    · exact mday_next (fun _ => Tm.seconds_nextYear) hminute hhour hk hday.2

/-- The next time is the first one after the present that has the fields that are given, unless the day is missing in the present month (or in
the given month of this year), or in the one after it when it has passed: then `mktime` moves the date to another day. -/
theorem cronNextTimeout_iff (tt : ℤ) (c : Cron) (h : c.Documented) :
    IsLeast {t | tt < t ∧ c.Matches t} (cronNextTimeout tt c) ↔ (0 < c.day → c.DaysExist tt) := by
  cases h with
  | minutely => exact iff_of_true (minutely_isLeast tt) fun h => absurd h not_given'
  | hourly minute hminute => exact iff_of_true (hourly_isLeast tt hminute) fun h => absurd h not_given'
  | daily minute hour hminute hhour => exact iff_of_true (daily_isLeast tt hminute hhour) fun h => absurd h not_given'
  | weekly minute hour week hminute hhour hweek =>
    exact iff_of_true (weekly_isLeast tt hminute hhour hweek) fun h => absurd h not_given'
  | monthly minute hour day hminute hhour hday =>
    rw [monthly_isLeast_iff tt hminute hhour hday]
    exact ⟨fun h _ => h, fun h => h hday.1⟩
  | yearly minute hour day month hminute hhour hday hmonth =>
    obtain ⟨hday, year, hyear⟩ := hday
    have hle := hyear.trans (@daysOfMonth_bounds month year hmonth.1 hmonth.2).2
    rw [yearly_isLeast_iff tt hminute hhour ⟨hday, hle⟩ hmonth]
    exact ⟨fun h _ => h, fun h => h hday⟩

theorem cronNextTimeout_iff_daily :
    IsLeast {t | 0 < t ∧ Cron.Matches ⟨30, 1, -1, -1, -1⟩ t} (cronNextTimeout 0 ⟨30, 1, -1, -1, -1⟩) :=
  (cronNextTimeout_iff 0 ⟨30, 1, -1, -1, -1⟩ (.daily 30 1 (by decide) (by decide))).mpr fun h => absurd h not_given'

/-- On 15 April the next day 31 is said to be 1 May. -/
theorem cronNextTimeout_april :
    Cron.Documented ⟨30, 1, 31, -1, -1⟩ ∧
      ¬IsLeast {t | 1681516800 < t ∧ Cron.Matches ⟨30, 1, 31, -1, -1⟩ t} (cronNextTimeout 1681516800 ⟨30, 1, 31, -1, -1⟩) := by
  have hmday : (localtime (cronNextTimeout 1681516800 ⟨30, 1, 31, -1, -1⟩)).mday = 1 := by decide
  exact ⟨.monthly 30 1 31 (by decide) (by decide) (by decide), fun hleast => not_matches (by decide) (by rw [hmday]; decide) hleast.1.2⟩

end Yjc.Base
