import Mathlib.Data.Int.Basic
import Mathlib.Logic.Function.Iterate

/-! The Gregorian calendar, a day after another, and the days counted from a first of March. -/
namespace ReconOS.Lib

structure Date where
  year : Int
  month : Int
  day : Int
  deriving DecidableEq, Repr

def leap (year : Int) : Prop := year % 4 = 0 ∧ (year % 100 ≠ 0 ∨ year % 400 = 0)

instance (year : Int) : Decidable (leap year) := inferInstanceAs (Decidable (_ ∧ _))

def monthLength (year month : Int) : Int :=
  if month = 2 then if leap year then 29 else 28
  else if month = 4 ∨ month = 6 ∨ month = 9 ∨ month = 11 then 30
  else 31

namespace Date

variable (date : Date)

structure Valid : Prop where
  month : 1 ≤ date.month ∧ date.month ≤ 12
  day : 1 ≤ date.day ∧ date.day ≤ monthLength date.year date.month

def next : Date :=
  if date.day < monthLength date.year date.month then { date with day := date.day + 1 }
  else if date.month < 12 then ⟨date.year, date.month + 1, 1⟩
  else ⟨date.year + 1, 1, 1⟩

def previous : Date :=
  if 1 < date.day then { date with day := date.day - 1 }
  else if 1 < date.month then
    ⟨date.year, date.month - 1, monthLength date.year (date.month - 1)⟩
  else ⟨date.year - 1, 12, 31⟩

theorem next_within {y m d : Int} (room : d < monthLength y m) :
    (Date.mk y m d).next = ⟨y, m, d + 1⟩ := if_pos room

theorem next_month {y m d : Int} (full : ¬ d < monthLength y m) (more : m < 12) :
    (Date.mk y m d).next = ⟨y, m + 1, 1⟩ := by
  rw [next, if_neg full, if_pos more]

theorem next_year {y m d : Int} (full : ¬ d < monthLength y m) (last : ¬ m < 12) :
    (Date.mk y m d).next = ⟨y + 1, 1, 1⟩ := by
  rw [next, if_neg full, if_neg last]

/-- The day that many days on from `date`, or back. -/
def plus (date : Date) : Int → Date
  | .ofNat n => next^[n] date
  | .negSucc n => previous^[n + 1] date

end Date

/-! ## Years that begin in March -/

/-- How many days there are from the first of March of the year 0 to that of `year`. -/
def marchStart (year : Int) : Int := 365 * year + year / 4 - year / 100 + year / 400

/-- The length of the year that begins in March of `year`. -/
def marchLength (year : Int) : Int := if leap (year + 1) then 366 else 365

theorem marchStart_succ (year : Int) :
    marchStart (year + 1) = marchStart year + marchLength year := by
  unfold marchStart marchLength
  split
  · rename_i long
    unfold leap at long
    omega
  · rename_i short
    unfold leap at short
    omega

theorem marchLength_le (year : Int) : 365 ≤ marchLength year ∧ marchLength year ≤ 366 := by
  unfold marchLength
  split
  · omega
  · omega

theorem marchStart_mono {year year' : Int} (le : year ≤ year') :
    marchStart year ≤ marchStart year' := by
  unfold marchStart
  omega

/-- A day is in one year only. -/
theorem march_unique {year year' day day' : Int}
    (same : marchStart year + day = marchStart year' + day')
    (within : 0 ≤ day ∧ day < marchLength year) (within' : 0 ≤ day' ∧ day' < marchLength year') :
    year = year' ∧ day = day' := by
  have start := marchStart_succ year
  have start' := marchStart_succ year'
  rcases Int.lt_trichotomy year year' with before | rfl | after
  · have := marchStart_mono (show year + 1 ≤ year' from before)
    omega
  · exact ⟨rfl, by omega⟩
  · have := marchStart_mono (show year' + 1 ≤ year from after)
    omega

/-- The months from March on, and the days before each. -/
def daysBefore (month : Int) : Int := (153 * month + 2) / 5

def marchMonth (day : Int) : Int := (5 * day + 2) / 153

theorem marchMonth_spec (day : Int) :
    daysBefore (marchMonth day) ≤ day ∧ day < daysBefore (marchMonth day + 1) := by
  unfold daysBefore marchMonth
  omega

theorem marchMonth_unique {day month : Int} (here : daysBefore month ≤ day)
    (before : day < daysBefore (month + 1)) : marchMonth day = month := by
  unfold daysBefore at here before
  unfold marchMonth
  omega

/-- The year and the month of the calendar that such a month is. -/
def marchYear (year month : Int) : Int := if month < 10 then year else year + 1

def calendarMonth (month : Int) : Int := if month < 10 then month + 3 else month - 9

/-- The date of a day of a year that begins in March. -/
def marchDate (year day : Int) : Date :=
  ⟨marchYear year (marchMonth day), calendarMonth (marchMonth day),
    day - daysBefore (marchMonth day) + 1⟩

theorem marchMonth_range {day : Int} (within : 0 ≤ day ∧ day < 366) :
    0 ≤ marchMonth day ∧ marchMonth day ≤ 11 := by
  unfold marchMonth
  omega

/-- From March to January a month is as long as the days before the next one say. -/
theorem monthLength_march (year : Int) {month : Int} (range : 0 ≤ month ∧ month ≤ 10) :
    monthLength (marchYear year month) (calendarMonth month) =
      daysBefore (month + 1) - daysBefore month := by
  have cases : month = 0 ∨ month = 1 ∨ month = 2 ∨ month = 3 ∨ month = 4 ∨ month = 5 ∨ month = 6 ∨
      month = 7 ∨ month = 8 ∨ month = 9 ∨ month = 10 := by omega
  rcases cases with rfl | rfl | rfl | rfl | rfl | rfl | rfl | rfl | rfl | rfl | rfl
  all_goals rfl

/-- February has what is left of the year. -/
theorem monthLength_february (year : Int) :
    monthLength (marchYear year 11) (calendarMonth 11) = marchLength year - daysBefore 11 := by
  change (if leap (year + 1) then 29 else 28) = (if leap (year + 1) then 366 else 365) - 337
  split
  · rfl
  · rfl

theorem marchDate_valid {year day : Int} (within : 0 ≤ day ∧ day < marchLength year) :
    (marchDate year day).Valid := by
  have long := marchLength_le year
  have range : 0 ≤ marchMonth day ∧ marchMonth day ≤ 11 := marchMonth_range (by omega)
  have spec := marchMonth_spec day
  constructor
  · change 1 ≤ calendarMonth (marchMonth day) ∧ calendarMonth (marchMonth day) ≤ 12
    unfold calendarMonth
    split
    · omega
    · omega
  · change 1 ≤ day - daysBefore (marchMonth day) + 1 ∧ day - daysBefore (marchMonth day) + 1 ≤
      monthLength (marchYear year (marchMonth day)) (calendarMonth (marchMonth day))
    refine ⟨by omega, ?_⟩
    by_cases february : marchMonth day = 11
    · rw [february, monthLength_february]
      omega
    · rw [monthLength_march year (by omega)]
      omega

/-- Days of one year follow one another. -/
theorem next_marchDate {year day : Int} (within : 0 ≤ day ∧ day + 1 < marchLength year) :
    (marchDate year day).next = marchDate year (day + 1) := by
  have long := marchLength_le year
  have range : 0 ≤ marchMonth day ∧ marchMonth day ≤ 11 := marchMonth_range (by omega)
  have spec := marchMonth_spec day
  by_cases same : day + 1 < daysBefore (marchMonth day + 1)
  · have month := marchMonth_unique (show daysBefore (marchMonth day) ≤ day + 1 by omega) same
    have room : day - daysBefore (marchMonth day) + 1 <
        monthLength (marchYear year (marchMonth day)) (calendarMonth (marchMonth day)) := by
      by_cases february : marchMonth day = 11
      · rw [february, monthLength_february]
        omega
      · rw [monthLength_march year (by omega)]
        omega
    rw [marchDate, Date.next_within room, marchDate, month]
    simp only [Date.mk.injEq, true_and]
    omega
  · have first : day + 1 = daysBefore (marchMonth day + 1) := by omega
    have january : marchMonth day ≤ 10 := by
      unfold daysBefore at first
      omega
    have month : marchMonth (day + 1) = marchMonth day + 1 := by
      apply marchMonth_unique (Int.le_of_eq first.symm)
      unfold daysBefore at first ⊢
      omega
    have full : ¬ day - daysBefore (marchMonth day) + 1 <
        monthLength (marchYear year (marchMonth day)) (calendarMonth (marchMonth day)) := by
      rw [monthLength_march year (by omega)]
      omega
    rw [marchDate, marchDate, month, first, Int.sub_self, Int.zero_add]
    by_cases december : marchMonth day = 9
    · rw [december] at full ⊢
      exact Date.next_year full (by decide)
    · have more : calendarMonth (marchMonth day) < 12 := by
        unfold calendarMonth
        split
        · omega
        · omega
      rw [Date.next_month full more]
      unfold marchYear calendarMonth
      by_cases early : marchMonth day < 9
      · rw [if_pos (by omega), if_pos (by omega), if_pos (by omega), if_pos (by omega)]
        simp only [Date.mk.injEq, true_and, and_true]
        omega
      · rw [if_neg (by omega), if_neg (by omega), if_neg (by omega), if_neg (by omega)]
        simp only [Date.mk.injEq, true_and, and_true]
        omega

/-- The last of February is before the first of March. -/
theorem next_marchDate_last {year day : Int} (last : day + 1 = marchLength year) :
    (marchDate year day).next = marchDate (year + 1) 0 := by
  have long := marchLength_le year
  have month : marchMonth day = 11 := by
    apply marchMonth_unique
    · unfold daysBefore
      omega
    · unfold daysBefore
      omega
  have full : ¬ day - daysBefore 11 + 1 < monthLength (marchYear year 11) (calendarMonth 11) := by
    rw [monthLength_february]
    omega
  rw [marchDate, month]
  exact Date.next_month full (by decide)

/-- The days after another, without end in either direction, are those counted from March. -/
theorem next_of_march {z z' year year' day day' : Int} (here : marchStart year + day = z)
    (within : 0 ≤ day ∧ day < marchLength year) (there : marchStart year' + day' = z')
    (within' : 0 ≤ day' ∧ day' < marchLength year') (after : z' = z + 1) :
    marchDate year' day' = (marchDate year day).next := by
  by_cases last : day + 1 = marchLength year
  · have start := marchStart_succ year
    have long := marchLength_le (year + 1)
    obtain ⟨rfl, rfl⟩ : year' = year + 1 ∧ day' = 0 :=
      march_unique (by omega) within' (by omega)
    exact (next_marchDate_last last).symm
  · obtain ⟨rfl, rfl⟩ : year' = year ∧ day' = day + 1 :=
      march_unique (by omega) within' (by omega)
    exact (next_marchDate (by omega)).symm

/-- A date as a day of a year that begins in March. -/
def Date.marchYear (date : Date) : Int := date.year - (if date.month ≤ 2 then 1 else 0)

def Date.marchDay (date : Date) : Int :=
  daysBefore (date.month + (if date.month > 2 then -3 else 9)) + date.day - 1

theorem Date.march_of_valid {date : Date} (valid : date.Valid) :
    marchDate date.marchYear date.marchDay = date ∧
      0 ≤ date.marchDay ∧ date.marchDay < marchLength date.marchYear := by
  obtain ⟨y, m, d⟩ := date
  obtain ⟨month, day⟩ := valid
  dsimp only at month day
  have place : ∃ year mp, 0 ≤ mp ∧ mp ≤ 11 ∧ Lib.marchYear year mp = y ∧ calendarMonth mp = m ∧
      Date.marchYear ⟨y, m, d⟩ = year ∧ Date.marchDay ⟨y, m, d⟩ = daysBefore mp + d - 1 := by
    by_cases early : m ≤ 2
    · refine ⟨y - 1, m + 9, by omega, by omega, ?_, ?_, ?_, ?_⟩
      · rw [Lib.marchYear, if_neg (by omega), Int.sub_add_cancel]
      · rw [calendarMonth, if_neg (by omega), Int.add_sub_cancel]
      · rw [Date.marchYear, if_pos early]
      · exact congrArg (fun i => daysBefore (m + i) + d - 1) (if_neg (show ¬ m > 2 by omega))
    · refine ⟨y, m - 3, by omega, by omega, ?_, ?_, ?_, ?_⟩
      · exact if_pos (by omega)
      · rw [calendarMonth, if_pos (by omega), Int.sub_add_cancel]
      · rw [Date.marchYear, if_neg early, Int.sub_zero]
      · exact congrArg (fun i => daysBefore (m + i) + d - 1) (if_pos (show m > 2 by omega))
  obtain ⟨year, mp, least, most, rfl, rfl, isYear, isDay⟩ := place
  rw [isYear, isDay]
  have next : d ≤ daysBefore (mp + 1) - daysBefore mp ∧
      daysBefore mp + d - 1 < marchLength year := by
    have long := marchLength_le year
    by_cases february : mp = 11
    · rw [february, monthLength_february] at day
      rw [february]
      unfold daysBefore at day ⊢
      omega
    · rw [monthLength_march year (by omega)] at day
      unfold daysBefore at day ⊢
      omega
  have here : marchMonth (daysBefore mp + d - 1) = mp := marchMonth_unique (by omega) (by omega)
  refine ⟨?_, ?_, next.2⟩
  · rw [marchDate, here, Date.mk.injEq]
    exact ⟨rfl, rfl, by omega⟩
  · unfold daysBefore
    omega

/-- And no two such days are one date. -/
theorem marchDate_inj {year year' day day' : Int} (within : 0 ≤ day ∧ day < marchLength year)
    (within' : 0 ≤ day' ∧ day' < marchLength year')
    (same : marchDate year day = marchDate year' day') : year = year' ∧ day = day' := by
  have long := marchLength_le year
  have long' := marchLength_le year'
  have range : 0 ≤ marchMonth day ∧ marchMonth day ≤ 11 := marchMonth_range (by omega)
  have range' : 0 ≤ marchMonth day' ∧ marchMonth day' ≤ 11 := marchMonth_range (by omega)
  obtain ⟨years, months, days⟩ := Date.mk.inj same
  have month : marchMonth day = marchMonth day' := by
    unfold calendarMonth at months
    split at months
    · split at months
      · omega
      · omega
    · split at months
      · omega
      · omega
  rw [month] at years days
  constructor
  · unfold Lib.marchYear at years
    split at years
    · exact years
    · omega
  · omega

/-! ## Days counted from a date -/

theorem Date.previous_next {date : Date} (valid : date.Valid) : date.next.previous = date := by
  obtain ⟨y, m, d⟩ := date
  obtain ⟨month, day⟩ := valid
  dsimp only at month day
  by_cases room : d < monthLength y m
  · rw [next_within room, previous, if_pos (show 1 < d + 1 by omega)]
    simp only [Date.mk.injEq, true_and]
    omega
  · by_cases more : m < 12
    · rw [next_month room more, previous, if_neg (show ¬ (1 : Int) < 1 by decide),
        if_pos (show 1 < m + 1 by omega)]
      simp only [Int.add_sub_cancel, Date.mk.injEq, true_and]
      omega
    · obtain rfl : m = 12 := by omega
      have length : monthLength y 12 = 31 := rfl
      rw [length] at room day
      rw [next_year (by rwa [length]) more, previous, if_neg (show ¬ (1 : Int) < 1 by decide),
        if_neg (show ¬ (1 : Int) < 1 by decide)]
      simp only [Int.add_sub_cancel, Date.mk.injEq, true_and]
      omega

/-- What begins at `epoch` and goes on day by day is the calendar; the induction is on how far the
day is, on or back. -/
theorem plus_of_next {on : Int → Date} {epoch : Date} (start : on 0 = epoch)
    (valid : ∀ day, (on day).Valid) (next : ∀ day, on (day + 1) = (on day).next) (day : Int) :
    on day = epoch.plus day := by
  cases day with
  | ofNat n =>
    induction n with
    | zero => exact start
    | succ n ih =>
      have step := next (.ofNat n)
      rw [ih] at step
      exact step.trans (Function.iterate_succ_apply' ..).symm
  | negSucc n =>
    have back : ∀ day, on day = (on (day + 1)).previous := by
      intro day
      rw [next day, Date.previous_next (valid day)]
    induction n with
    | zero =>
      rw [back, show Int.negSucc 0 + 1 = 0 from rfl, start]
      rfl
    | succ n ih =>
      rw [back, show Int.negSucc (n + 1) + 1 = Int.negSucc n from by omega, ih]
      exact (Function.iterate_succ_apply' ..).symm

end ReconOS.Lib
