import Mathlib.Order.Monotone.Basic
import Mathlib.Data.Nat.Find
import Mathlib.Tactic.IntervalCases

/-!
# `Library.Gregorian` — the proleptic Gregorian calendar

Dates by year, month and day against the count of days since 1970-01-01: `dayNumber` counts every day once
(`dayNumber_next`, `dayNumber_epoch`), and `ofDayNumber` is its inverse.
-/

namespace Library

namespace Gregorian

def isLeap (year : Int) : Bool := year % 4 == 0 && (year % 100 != 0 || year % 400 == 0)

def daysInMonth (leap : Bool) : Nat → Nat
  | 2 => if leap then 29 else 28
  | 4 | 6 | 9 | 11 => 30
  | _ => 31

theorem daysInMonth_pos (leap : Bool) (month : Nat) : 1 ≤ daysInMonth leap month := by
  unfold daysInMonth
  split
  · split <;> decide
  all_goals decide

theorem daysInMonth_le (leap : Bool) (month : Nat) : daysInMonth leap month ≤ 31 := by
  unfold daysInMonth
  split
  · split <;> decide
  all_goals decide

theorem one_le_month : 1 ≤ 1 ∧ 1 ≤ 12 := ⟨Nat.le_refl 1, by decide⟩

/-- A date of the calendar. -/
@[ext] structure Date where
  year : Int
  month : Nat
  day : Nat
  month_range : 1 ≤ month ∧ month ≤ 12
  day_range : 1 ≤ day ∧ day ≤ daysInMonth (isLeap year) month
  deriving DecidableEq, Repr

/-- The first day of a year, in days since 1970-01-01. -/
def daysBeforeYear (year : Int) : Int :=
  365 * year + (year - 1) / 4 - (year - 1) / 100 + (year - 1) / 400 - 719527

/-- The days of a year in front of a month. -/
def daysBeforeMonth (leap : Bool) : Nat → Nat
  | 0 | 1 => 0
  | month + 1 => daysBeforeMonth leap month + daysInMonth leap month

/-- Days since 1970-01-01. -/
def Date.dayNumber (date : Date) : Int :=
  daysBeforeYear date.year + daysBeforeMonth (isLeap date.year) date.month + (date.day - 1)

/-- The day of the week, from Sunday on. -/
def weekday (n : Int) : Nat := ((n + 4) % 7).toNat

/-- A time of a day, with a leap second behind its last one. -/
@[ext] structure CivilTime where
  date : Date
  hour : Nat
  minute : Nat
  second : Nat
  hour_le : hour ≤ 23
  minute_le : minute ≤ 59
  second_le : second ≤ 60
  deriving DecidableEq, Repr

/-- Seconds since 1970-01-01; a leap second is the first one of the next minute. -/
def CivilTime.instant (time : CivilTime) : Int :=
  time.date.dayNumber * 86400 + time.hour * 3600 + time.minute * 60 + time.second

/-! ## Years -/

section

theorem daysBeforeYear_succ (year : Int) :
    daysBeforeYear (year + 1) = daysBeforeYear year + (if isLeap year then 366 else 365) := by
  unfold daysBeforeYear isLeap
  simp only [Bool.and_eq_true, Bool.or_eq_true, beq_iff_eq, bne_iff_ne]
  split <;> omega

theorem daysBeforeYear_mono {a b : Int} (h : a ≤ b) : daysBeforeYear a ≤ daysBeforeYear b := by
  unfold daysBeforeYear
  omega

/-- The year of a day. The average length of a year is 146097 / 400 days, which misses the year by one at most. -/
def yearOf (n : Int) : Int :=
  let guess := 400 * (n + 719527) / 146097
  if n < daysBeforeYear guess then guess - 1
  else if daysBeforeYear (guess + 1) ≤ n then guess + 1
  else guess

theorem yearOf_spec (n : Int) : daysBeforeYear (yearOf n) ≤ n ∧ n < daysBeforeYear (yearOf n + 1) := by
  unfold yearOf daysBeforeYear
  dsimp only
  split_ifs <;> omega

theorem le_yearOf_iff (year n : Int) : year ≤ yearOf n ↔ daysBeforeYear year ≤ n := by
  obtain ⟨hle, hlt⟩ := yearOf_spec n
  constructor
  · intro h
    exact le_trans (daysBeforeYear_mono h) hle
  · intro h
    by_contra hnot
    have hmono := daysBeforeYear_mono (show yearOf n + 1 ≤ year by omega)
    omega

end

/-! ## Months -/

section

variable {leap : Bool} {month rest : Nat}

theorem daysBeforeMonth_succ (h : 1 ≤ month) :
    daysBeforeMonth leap (month + 1) = daysBeforeMonth leap month + daysInMonth leap month := by
  rw [daysBeforeMonth]
  omega

theorem daysBeforeMonth_mono : Monotone (daysBeforeMonth leap) := by
  apply monotone_nat_of_le_succ
  intro month
  rcases month with _ | month
  · exact Nat.le_refl _
  · exact Nat.le_add_right _ _

theorem daysBeforeMonth_end (leap : Bool) : daysBeforeMonth leap 13 = if leap then 366 else 365 := by
  cases leap <;> rfl

/-- The month of a day of a year, from 0 on. -/
def monthOf (leap : Bool) (rest : Nat) : Nat := Nat.findGreatest (daysBeforeMonth leap · ≤ rest) 12

theorem monthOf_spec (h : rest < if leap then 366 else 365) :
    (1 ≤ monthOf leap rest ∧ monthOf leap rest ≤ 12) ∧ daysBeforeMonth leap (monthOf leap rest) ≤ rest ∧
      rest < daysBeforeMonth leap (monthOf leap rest + 1) := by
  have hone : daysBeforeMonth leap 1 ≤ rest := Nat.zero_le _
  have hle : monthOf leap rest ≤ 12 := Nat.findGreatest_le 12
  refine ⟨⟨Nat.le_findGreatest (by decide) hone, hle⟩, ?_, ?_⟩
  · exact @Nat.findGreatest_spec 1 (daysBeforeMonth leap · ≤ rest) _ 12 (by decide) hone
  · rcases Nat.lt_or_ge (monthOf leap rest) 12 with hlt | hge
    · apply not_le.mp
      exact @Nat.findGreatest_is_greatest _ (daysBeforeMonth leap · ≤ rest) _ 12 (Nat.lt_succ_self _) hlt
    · rw [show monthOf leap rest = 12 by omega, daysBeforeMonth_end]
      exact h

end

/-! ## Dates -/

/-- The date of a day. -/
def ofDayNumber (n : Int) : Date :=
  let year := yearOf n
  let rest := (n - daysBeforeYear year).toNat
  have hrest : rest < if isLeap year then 366 else 365 := by
    obtain ⟨hle, hlt⟩ := yearOf_spec n
    rw [daysBeforeYear_succ] at hlt
    show (n - daysBeforeYear (yearOf n)).toNat < if isLeap (yearOf n) then 366 else 365
    split_ifs at hlt ⊢ <;> omega
  { year
    month := monthOf (isLeap year) rest
    day := rest - daysBeforeMonth (isLeap year) (monthOf (isLeap year) rest) + 1
    month_range := (monthOf_spec hrest).1
    day_range := by
      obtain ⟨⟨hone, -⟩, hle, hlt⟩ := monthOf_spec hrest
      rw [daysBeforeMonth_succ hone] at hlt
      omega }

namespace Date

variable (date : Date)

theorem lt_daysBeforeMonth_succ :
    daysBeforeMonth (isLeap date.year) date.month + (date.day - 1) <
      daysBeforeMonth (isLeap date.year) (date.month + 1) := by
  have hday := date.day_range
  rw [daysBeforeMonth_succ date.month_range.1]
  omega

/-- A day is behind the first day of its year, and in front of the next year. -/
theorem dayNumber_range :
    daysBeforeYear date.year ≤ date.dayNumber ∧ date.dayNumber < daysBeforeYear (date.year + 1) := by
  have hday := date.day_range
  have hlt := date.lt_daysBeforeMonth_succ
  have hyear : daysBeforeMonth (isLeap date.year) (date.month + 1) ≤ if isLeap date.year then 366 else 365 := by
    rw [← daysBeforeMonth_end]
    exact daysBeforeMonth_mono (Nat.succ_le_succ date.month_range.2)
  rw [daysBeforeYear_succ]
  unfold dayNumber
  split_ifs at hyear ⊢ <;> omega

/-- The day behind a date. -/
def next : Date :=
  if hday : date.day < daysInMonth (isLeap date.year) date.month then
    { date with day := date.day + 1, day_range := ⟨Nat.succ_pos _, hday⟩ }
  else if hmonth : date.month < 12 then
    { date with
      month := date.month + 1
      day := 1
      month_range := ⟨Nat.succ_pos _, hmonth⟩
      day_range := ⟨Nat.le_refl 1, daysInMonth_pos _ _⟩ }
  else ⟨date.year + 1, 1, 1, one_le_month, ⟨Nat.le_refl 1, daysInMonth_pos _ _⟩⟩

end Date

/-- **Every day has a date.** -/
theorem dayNumber_ofDayNumber (n : Int) : (ofDayNumber n).dayNumber = n := by
  obtain ⟨hle, hlt⟩ := yearOf_spec n
  have hrest : (n - daysBeforeYear (yearOf n)).toNat < if isLeap (yearOf n) then 366 else 365 := by
    rw [daysBeforeYear_succ] at hlt
    split_ifs at hlt ⊢ <;> omega
  have hmonth := (monthOf_spec hrest).2.1
  unfold ofDayNumber Date.dayNumber
  dsimp only
  omega

/-- The count of days starts with 1970-01-01. -/
theorem dayNumber_epoch : (Date.mk 1970 1 1 (by decide) (by decide)).dayNumber = 0 := by decide

/-- **The count of days counts each day once.** -/
theorem dayNumber_next (date : Date) : date.next.dayNumber = date.dayNumber + 1 := by
  have hday := date.day_range
  have hmonth := date.month_range
  unfold Date.next
  split_ifs with hlast hyear
  · unfold Date.dayNumber
    dsimp only
    omega
  · unfold Date.dayNumber
    dsimp only
    rw [daysBeforeMonth_succ hmonth.1]
    omega
  · have hend := daysBeforeMonth_end (isLeap date.year)
    rw [daysBeforeMonth_succ (by decide), show 12 = date.month by omega] at hend
    unfold Date.dayNumber
    dsimp only
    rw [daysBeforeYear_succ]
    rw [show daysBeforeMonth (isLeap (date.year + 1)) 1 = 0 from rfl]
    split_ifs at hend ⊢ <;> omega

/-! ## Times -/

/-- The time of a day at an instant. -/
def ofInstant (t : Int) : CivilTime where
  date := ofDayNumber (t / 86400)
  hour := (t % 86400).toNat / 3600
  minute := (t % 86400).toNat / 60 % 60
  second := (t % 86400).toNat % 60
  hour_le := by omega
  minute_le := by omega
  second_le := by omega

theorem instant_ofInstant (t : Int) : (ofInstant t).instant = t := by
  unfold CivilTime.instant ofInstant
  dsimp only
  rw [dayNumber_ofDayNumber]
  omega

theorem year_ofInstant_le_iff (t year : Int) : year ≤ (ofInstant t).date.year ↔ daysBeforeYear year * 86400 ≤ t := by
  show year ≤ yearOf (t / 86400) ↔ _
  rw [le_yearOf_iff]
  omega

/-- The instants of a year. -/
theorem CivilTime.instant_range (time : CivilTime) :
    daysBeforeYear time.date.year * 86400 ≤ time.instant ∧
      time.instant ≤ daysBeforeYear (time.date.year + 1) * 86400 := by
  obtain ⟨hle, hlt⟩ := time.date.dayNumber_range
  have hhour := time.hour_le
  have hminute := time.minute_le
  have hsecond := time.second_le
  unfold instant
  omega

end Gregorian

end Library
