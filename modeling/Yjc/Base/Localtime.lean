import Yjc.Base.Datetime

/-! `localtime` and `mktime` where local time is UTC. A time is the number of seconds since the epoch of Unix. -/

namespace Yjc.Base

/-- `struct tm` -/
structure Tm where
  sec : ℤ
  min : ℤ
  hour : ℤ
  mday : ℤ
  mon : ℤ
  year : ℤ
  wday : ℤ
deriving DecidableEq

/-- The day number of 1 January 1970. -/
def epoch : ℤ := 719163

/-- The year of a day, from an estimate that may be a year off. -/
def yearOf (n : ℤ) : ℤ :=
  let year := 400 * (n - 1) / 146097 + 1
  if daysBeforeYear (year + 1) < n then year + 1 else if n ≤ daysBeforeYear year then year - 1 else year

/-- The last of the first months of a year that begins before a day. -/
def monthOf (year n : ℤ) : ℕ → ℤ
  | 0 => 0
  | m + 1 => if monthStart (m + 1) year < n then m + 1 else monthOf year n m

def localtime (t : ℤ) : Tm :=
  let n := t / 86400 + epoch
  let month := monthOf (yearOf n) n 12
  { sec := t % 60
    min := t / 60 % 60
    hour := t / 3600 % 24
    mday := n - monthStart month (yearOf n)
    mon := month - 1
    year := yearOf n - 1900
    wday := n % 7 }

example : localtime 0 = ⟨0, 0, 0, 1, 0, 70, 4⟩ := by decide

/-- Months numbered on from year to year. -/
def monthBegin (k : ℤ) : ℤ := monthStart (k % 12 + 1) (k / 12)

def monthLength (k : ℤ) : ℤ := daysOfMonth (k % 12 + 1) (k / 12)

namespace Tm

/-- The number of the month, which may be one of another year than the field says. -/
def month (tm : Tm) : ℤ := 12 * (tm.year + 1900) + tm.mon

/-- Seconds since the epoch of fields in any range, as POSIX has them. -/
def seconds (tm : Tm) : ℤ := (monthBegin tm.month + tm.mday - epoch) * 86400 + tm.hour * 3600 + tm.min * 60 + tm.sec

structure Valid (tm : Tm) : Prop where
  sec : 0 ≤ tm.sec ∧ tm.sec < 60
  min : 0 ≤ tm.min ∧ tm.min < 60
  hour : 0 ≤ tm.hour ∧ tm.hour < 24
  mday : 1 ≤ tm.mday ∧ tm.mday ≤ monthLength tm.month

end Tm

/-- `mktime`: the time, and the fields brought into their ranges. -/
def mktime (tm : Tm) : ℤ × Tm := (tm.seconds, localtime tm.seconds)

/-! ## Days -/

variable {year month n t s k k' : ℤ} {tm u v : Tm}

theorem yearOf_spec (n : ℤ) : daysBeforeYear (yearOf n) < n ∧ n ≤ daysBeforeYear (yearOf n + 1) := by
  rw [yearOf]
  split_ifs with hlate hearly
  · refine ⟨hlate, ?_⟩
    rw [daysBeforeYear]
    omega
  · refine ⟨?_, by rwa [Int.sub_add_cancel]⟩
    rw [daysBeforeYear]
    omega
  · exact ⟨Int.not_le.mp hearly, Int.not_lt.mp hlate⟩

theorem monthOf_spec (m : ℕ) (hm : 1 ≤ m) (hm' : m ≤ 12) (hbegin : daysBeforeYear year < n)
    (hend : n ≤ monthStart m year + daysOfMonth m year) :
    (1 ≤ monthOf year n m ∧ monthOf year n m ≤ 12) ∧ monthStart (monthOf year n m) year < n ∧
      n ≤ monthStart (monthOf year n m) year + daysOfMonth (monthOf year n m) year := by
  induction m with
  | zero => exact absurd hm (by decide)
  | succ m ih =>
    rw [monthOf]
    by_cases hstart : monthStart (m + 1) year < n
    · rw [if_pos hstart]
      exact ⟨by omega, hstart, by exact_mod_cast hend⟩
    · rw [if_neg hstart]
      by_cases hzero : m = 0
      · subst hzero
        rw [show ((0 : ℕ) : ℤ) + 1 = 1 from rfl, monthStart_january] at hstart
        omega
      · rw [monthStart_succ (by omega) (by omega)] at hstart
        exact ih (by omega) (by omega) (by omega)

theorem monthBegin_succ (k : ℤ) : monthBegin (k + 1) = monthBegin k + monthLength k := by
  rw [monthBegin, monthBegin, monthLength]
  by_cases hlast : k % 12 = 11
  · rw [show (k + 1) % 12 + 1 = 1 by omega, show (k + 1) / 12 = k / 12 + 1 by omega, hlast, monthStart_january, daysBeforeYear_succ]
    exact congrArg _ (daysOfMonth_december _).symm
  · rw [show (k + 1) % 12 + 1 = k % 12 + 1 + 1 by omega, show (k + 1) / 12 = k / 12 by omega, monthStart_succ (by omega) (by omega)]

theorem monthLength_bounds (k : ℤ) : 28 ≤ monthLength k ∧ monthLength k ≤ 31 := by
  have hall : ∀ i : Fin 12, 28 ≤ sDays.getD i 0 := by decide
  have hmonth := hall ⟨(k % 12).toNat, by omega⟩
  have hbounds := @daysOfMonth_bounds (k % 12 + 1) (k / 12) (by omega) (by omega)
  refine ⟨?_, hbounds.2⟩
  rw [monthLength, daysOfMonth_eq (by omega) (by omega), Int.add_sub_cancel]
  dsimp only at hmonth
  split_ifs <;> omega

theorem monthBegin_le (h : k < k') : monthBegin k + monthLength k ≤ monthBegin k' := by
  induction k', h using Int.leInduction with
  | base => exact (monthBegin_succ k).ge
  | succ k' _ ih =>
    rw [monthBegin_succ]
    have := (monthLength_bounds k').1
    omega

/-! ## Fields of a time -/

theorem monthIndex (year : ℤ) (h : 1 ≤ month) (h' : month ≤ 12) :
    monthBegin (12 * year + (month - 1)) = monthStart month year ∧ monthLength (12 * year + (month - 1)) = daysOfMonth month year := by
  have hrem : (12 * year + (month - 1)) % 12 + 1 = month := by omega
  have hdiv : (12 * year + (month - 1)) / 12 = year := by omega
  rw [monthBegin, monthLength, hrem, hdiv]
  exact ⟨rfl, rfl⟩

theorem localtime_spec (t : ℤ) : (localtime t).Valid ∧ (localtime t).seconds = t ∧ 0 ≤ (localtime t).mon ∧ (localtime t).mon < 12 := by
  obtain ⟨hbegin, hend⟩ := yearOf_spec (t / 86400 + epoch)
  have hdecember : t / 86400 + epoch ≤ monthStart (12 : ℕ) (yearOf (t / 86400 + epoch)) + daysOfMonth (12 : ℕ) (yearOf (t / 86400 + epoch)) := by
    rw [daysBeforeYear_succ] at hend
    exact hend.trans_eq (congrArg _ (daysOfMonth_december _).symm)
  obtain ⟨⟨hm, hm'⟩, hstart, hlast⟩ := monthOf_spec 12 (by decide) (by decide) hbegin hdecember
  obtain ⟨hmonth, hlength⟩ := monthIndex (yearOf (t / 86400 + epoch)) hm hm'
  have hindex : (localtime t).month =
      12 * yearOf (t / 86400 + epoch) + (monthOf (yearOf (t / 86400 + epoch)) (t / 86400 + epoch) 12 - 1) := by
    rw [Tm.month, localtime]
    dsimp only
    omega
  rw [← hindex] at hmonth hlength
  refine ⟨⟨?_, ?_, ?_, ?_⟩, ?_, ?_⟩
  · exact ⟨Int.emod_nonneg _ (by decide), Int.emod_lt_of_pos _ (by decide)⟩
  · exact ⟨Int.emod_nonneg _ (by decide), Int.emod_lt_of_pos _ (by decide)⟩
  · exact ⟨Int.emod_nonneg _ (by decide), Int.emod_lt_of_pos _ (by decide)⟩
  · rw [hlength, localtime]
    dsimp only
    omega
  · rw [Tm.seconds, hmonth, localtime]
    dsimp only
    omega
  · rw [localtime]
    dsimp only
    omega

theorem Tm.Valid.eq_of_seconds (hu : u.Valid) (hv : v.Valid) (h : u.seconds = v.seconds) :
    u.sec = v.sec ∧ u.min = v.min ∧ u.hour = v.hour ∧ u.mday = v.mday ∧ u.month = v.month := by
  have hsec := hu.sec
  have hmin := hu.min
  have hhour := hu.hour
  have hsec' := hv.sec
  have hmin' := hv.min
  have hhour' := hv.hour
  rw [Tm.seconds, Tm.seconds] at h
  have hday : monthBegin u.month + u.mday = monthBegin v.month + v.mday := by omega
  have hmday := hu.mday
  have hmday' := hv.mday
  have hmonth : u.month = v.month := by
    rcases lt_trichotomy u.month v.month with hlt | heq | hlt
    · have := monthBegin_le hlt
      omega
    · exact heq
    · have := monthBegin_le hlt
      omega
  rw [hmonth] at h hday
  exact ⟨by omega, by omega, by omega, by omega, hmonth⟩

theorem localtime_seconds (h : tm.Valid) :
    (localtime tm.seconds).sec = tm.sec ∧ (localtime tm.seconds).min = tm.min ∧ (localtime tm.seconds).hour = tm.hour ∧
      (localtime tm.seconds).mday = tm.mday ∧ (localtime tm.seconds).month = tm.month :=
  (localtime_spec tm.seconds).1.eq_of_seconds h (localtime_spec tm.seconds).2.1

theorem month_mono (h : s ≤ t) : (localtime s).month ≤ (localtime t).month := by
  refine Int.not_lt.mp fun hlt => ?_
  obtain ⟨hs, hs', _⟩ := localtime_spec s
  obtain ⟨ht, ht', _⟩ := localtime_spec t
  have := monthBegin_le hlt
  have := hs.mday
  have := ht.mday
  have := hs.sec
  have := hs.min
  have := hs.hour
  have := ht.sec
  have := ht.min
  have := ht.hour
  rw [Tm.seconds] at hs' ht'
  omega

end Yjc.Base
