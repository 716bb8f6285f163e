import ReconOS.Lib.Gregorian

/-! Seconds as dates: the C library's way, the clock's, and back again. -/
namespace ReconOS.Libc.Calendar

open ReconOS.Lib

/-- A conversion to `int`. -/
def int32 (x : Int) : Int := Int.bmod x 4294967296

/-- The day that a second is in, and how far into it. -/
def split (seconds : Int) : Int × Int :=
  if seconds.tmod 86400 < 0 then (seconds.tdiv 86400 - 1, seconds.tmod 86400 + 86400)
  else (seconds.tdiv 86400, seconds.tmod 86400)

/-- `civil_from_days`, but for what is done with the year. -/
def civilLong (days : Int) : Date :=
  let z := days + 719468
  let era := (if z ≥ 0 then z else z - 146096).tdiv 146097
  let doe := z - era * 146097
  let yoe := (doe - doe.tdiv 1460 + doe.tdiv 36524 - doe.tdiv 146096).tdiv 365
  let y := yoe + era * 400
  let doy := doe - (365 * yoe + yoe.tdiv 4 - yoe.tdiv 100)
  let mp := (5 * doy + 2).tdiv 153
  let d := doy - (153 * mp + 2).tdiv 5 + 1
  let m := mp + (if mp < 10 then 3 else -9)
  ⟨y + (if m ≤ 2 then 1 else 0), m, d⟩

def civilFromDays (days : Int) : Date :=
  { civilLong days with year := int32 (civilLong days).year }

def isLeap (year : Int) : Bool :=
  (year.tmod 4 = 0 && year.tmod 100 ≠ 0) || year.tmod 400 = 0

/-- `struct tm`. -/
structure Tm where
  sec : Int
  min : Int
  hour : Int
  mday : Int
  mon : Int
  year : Int
  wday : Int
  yday : Int
  isdst : Int
  deriving DecidableEq, Repr

def before : List Int := [0, 31, 59, 90, 120, 151, 181, 212, 243, 273, 304, 334]

/-- `gmtime_r`, and `localtime_r`. -/
def gmtime (seconds : Int) : Tm :=
  let (days, rest) := split seconds
  let date := civilFromDays days
  { sec := rest.tmod 60
    min := (rest.tmod 3600).tdiv 60
    hour := rest.tdiv 3600
    mday := date.day
    mon := date.month - 1
    year := date.year - 1900
    wday := (days.tmod 7 + 11).tmod 7
    yday := before.getD (date.month - 1).toNat 0 + date.day - 1 +
      (if date.month > 2 ∧ isLeap date.year = true then 1 else 0)
    isdst := 0 }

/-- `struct recon_clock_time`. -/
structure ClockTime where
  date : Date
  hour : Int
  minute : Int
  second : Int
  weekday : Int
  deriving DecidableEq, Repr

/-- `recon_clock_break_up`, in a zone of so many minutes. -/
def breakUp (zone seconds : Int) : ClockTime :=
  let (days, rest) := split (seconds + zone * 60)
  { date := civilFromDays days
    hour := rest.tdiv 3600
    minute := (rest.tmod 3600).tdiv 60
    second := rest.tmod 60
    weekday := (days.tmod 7 + 11).tmod 7 }

/-- `recon_clock_epoch_of`. -/
def epochOf (date : Date) : Int :=
  let y := date.year - (if date.month ≤ 2 then 1 else 0)
  let era := (if y ≥ 0 then y else y - 399).tdiv 400
  let yoe := y - era * 400
  let doy := (153 * (date.month + (if date.month > 2 then -3 else 9)) + 2).tdiv 5 + date.day - 1
  let doe := yoe * 365 + yoe.tdiv 4 - yoe.tdiv 100 + doy
  (era * 146097 + doe - 719468) * 86400

/-! ## Rounding -/

theorem tdiv_nonneg {a b : Int} (pos : 0 ≤ a) : a.tdiv b = a / b := Int.tdiv_eq_ediv_of_nonneg pos

theorem tdiv_nonpos {a b : Int} (neg : a ≤ 0) : a.tdiv b = -(-a / b) := by
  have negated := Int.neg_tdiv (-a) b
  rw [Int.neg_neg] at negated
  rw [negated, tdiv_nonneg (by omega)]

theorem split_eq (seconds : Int) : split seconds = (seconds / 86400, seconds % 86400) := by
  rw [split, Int.tmod_def]
  rcases Int.le_total 0 seconds with pos | neg
  · rw [tdiv_nonneg pos, if_neg (by omega)]
    simp only [Prod.mk.injEq, true_and]
    omega
  · rw [tdiv_nonpos neg]
    split
    · simp only [Prod.mk.injEq]
      omega
    · simp only [Prod.mk.injEq]
      omega

/-- A division that is made to round down. -/
theorem tdiv_down (z : Int) : (if z ≥ 0 then z else z - 146096).tdiv 146097 = z / 146097 := by
  split
  · rename_i pos
    exact tdiv_nonneg pos
  · rw [tdiv_nonpos (by omega)]
    omega

theorem tdiv_down_years (y : Int) : (if y ≥ 0 then y else y - 399).tdiv 400 = y / 400 := by
  split
  · rename_i pos
    exact tdiv_nonneg pos
  · rw [tdiv_nonpos (by omega)]
    omega

theorem weekday_eq (days : Int) : (days.tmod 7 + 11).tmod 7 = (days + 4) % 7 := by
  have small : 0 ≤ days.tmod 7 + 11 := by
    rw [Int.tmod_def]
    rcases Int.le_total 0 days with pos | neg
    · rw [tdiv_nonneg pos]
      omega
    · rw [tdiv_nonpos neg]
      omega
  rw [Int.tmod_eq_emod_of_nonneg small, Int.tmod_def]
  rcases Int.le_total 0 days with pos | neg
  · rw [tdiv_nonneg pos]
    omega
  · rw [tdiv_nonpos neg]
    omega

theorem isLeap_eq (year : Int) : isLeap year = true ↔ leap year := by
  have zero : ∀ b : Int, year.tmod b = 0 ↔ year % b = 0 := by
    intro b
    rw [← Int.dvd_iff_tmod_eq_zero, Int.dvd_iff_emod_eq_zero]
  simp only [isLeap, Bool.or_eq_true, Bool.and_eq_true, decide_eq_true_eq, ne_eq, zero]
  unfold leap
  omega

/-! ## The day that a count of days is -/

/-- The years of an era, counted from the days of it. -/
theorem year_of_era {doe c q r doy : Int} (century : 0 ≤ c ∧ c ≤ 3) (four : 0 ≤ q ∧ q ≤ 24)
    (one : 0 ≤ r ∧ r ≤ 3) (pos : 0 ≤ doy)
    (most : doy ≤ 364 ∨ doy = 365 ∧ r = 3 ∧ (q ≤ 23 ∨ c = 3))
    (is : doe = 36524 * c + 1461 * q + 365 * r + doy) :
    (doe - doe / 1460 + doe / 36524 - doe / 146096) / 365 = 100 * c + 4 * q + r := by
  by_cases last : doe = 146096
  · obtain ⟨rfl, rfl, rfl⟩ : c = 3 ∧ q = 24 ∧ r = 3 := by omega
    rw [last]
    rfl
  · have centuries : doe / 36524 = c := by omega
    have eras : doe / 146096 = 0 := by omega
    rw [centuries, eras]
    -- the leap days before carry the quotient over near the end of four years
    by_cases carry : 24 * c + q + 365 * r + doy < 1460
    · have fours : doe / 1460 = 25 * c + q := by omega
      rw [fours]
      omega
    · have fours : doe / 1460 = 25 * c + q + 1 := by omega
      rw [fours]
      omega

theorem era_parts {doe : Int} (within : 0 ≤ doe ∧ doe < 146097) : ∃ c q r doy : Int,
    (0 ≤ c ∧ c ≤ 3) ∧ (0 ≤ q ∧ q ≤ 24) ∧ (0 ≤ r ∧ r ≤ 3) ∧ 0 ≤ doy ∧
      (doy ≤ 364 ∨ doy = 365 ∧ r = 3 ∧ (q ≤ 23 ∨ c = 3)) ∧
      doe = 36524 * c + 1461 * q + 365 * r + doy := by
  obtain ⟨c, hc⟩ : ∃ c, c = min (doe / 36524) 3 := ⟨_, rfl⟩
  obtain ⟨q, hq⟩ : ∃ q, q = (doe - 36524 * c) / 1461 := ⟨_, rfl⟩
  obtain ⟨r, hr⟩ : ∃ r, r = min ((doe - 36524 * c - 1461 * q) / 365) 3 := ⟨_, rfl⟩
  refine ⟨c, q, r, doe - 36524 * c - 1461 * q - 365 * r, ?_, ?_, ?_, ?_, ?_, ?_⟩
  all_goals omega

/-- Where the year of such parts starts, and how long it is. -/
theorem marchStart_parts {c q r era : Int} (century : 0 ≤ c ∧ c ≤ 3) (four : 0 ≤ q ∧ q ≤ 24)
    (one : 0 ≤ r ∧ r ≤ 3) : marchStart (100 * c + 4 * q + r + 400 * era) =
      146097 * era + 36524 * c + 1461 * q + 365 * r := by
  have fours : (100 * c + 4 * q + r + 400 * era) / 4 = 25 * c + q + 100 * era := by omega
  have hundreds : (100 * c + 4 * q + r + 400 * era) / 100 = c + 4 * era := by omega
  have eras : (100 * c + 4 * q + r + 400 * era) / 400 = era := by omega
  rw [marchStart, fours, hundreds, eras]
  omega

theorem marchLength_parts {c q r era : Int} (four : 0 ≤ q ∧ q ≤ 24)
    (long : r = 3 ∧ (q ≤ 23 ∨ c = 3)) :
    marchLength (100 * c + 4 * q + r + 400 * era) = 366 := by
  apply if_pos
  unfold leap
  omega

/-- The month of a day of the year, as the code counts it. -/
theorem month_of_day {year doy : Int} (within : 0 ≤ doy ∧ doy < 366) :
    Date.mk (year + (if (5 * doy + 2).tdiv 153 +
        (if (5 * doy + 2).tdiv 153 < 10 then 3 else -9) ≤ 2 then 1 else 0))
      ((5 * doy + 2).tdiv 153 + (if (5 * doy + 2).tdiv 153 < 10 then 3 else -9))
      (doy - (153 * (5 * doy + 2).tdiv 153 + 2).tdiv 5 + 1) = marchDate year doy := by
  have range := marchMonth_range within
  have month : (5 * doy + 2).tdiv 153 = marchMonth doy := tdiv_nonneg (by omega)
  have days : (153 * marchMonth doy + 2).tdiv 5 = daysBefore (marchMonth doy) :=
    tdiv_nonneg (by omega)
  rw [month, days, marchDate, Date.mk.injEq]
  unfold marchYear calendarMonth
  refine ⟨?_, ?_, rfl⟩
  · by_cases early : marchMonth doy < 10
    · rw [if_pos early, if_pos early, if_neg (by omega), Int.add_zero]
    · rw [if_neg early, if_neg early, if_pos (by omega)]
  · by_cases early : marchMonth doy < 10
    · rw [if_pos early, if_pos early]
    · rw [if_neg early, if_neg early]
      rfl

theorem leap_days_le {doe : Int} (pos : 0 ≤ doe) :
    0 ≤ doe - doe / 1460 + doe / 36524 - doe / 146096 := by omega

theorem leap_days_of {c q r : Int} (century : 0 ≤ c ∧ c ≤ 3) (four : 0 ≤ q ∧ q ≤ 24)
    (one : 0 ≤ r ∧ r ≤ 3) : (100 * c + 4 * q + r).tdiv 4 = 25 * c + q ∧
      (100 * c + 4 * q + r).tdiv 100 = c := by
  have pos : 0 ≤ 100 * c + 4 * q + r := by omega
  rw [tdiv_nonneg pos, tdiv_nonneg pos]
  omega

/-- The date is that of the day counted from a first of March. -/
theorem civilLong_march (days : Int) : ∃ year day, civilLong days = marchDate year day ∧
    marchStart year + day = days + 719468 ∧ 0 ≤ day ∧ day < marchLength year := by
  obtain ⟨z, hz⟩ : ∃ z, z = days + 719468 := ⟨_, rfl⟩
  obtain ⟨era, hera⟩ : ∃ era, era = z / 146097 := ⟨_, rfl⟩
  have within : 0 ≤ z - era * 146097 ∧ z - era * 146097 < 146097 := by omega
  obtain ⟨c, q, r, doy, century, four, one, pos, most, is⟩ := era_parts within
  have small : doy < 366 := by omega
  have start := @marchStart_parts c q r era century four one
  refine ⟨100 * c + 4 * q + r + 400 * era, doy, ?_, ?_, pos, ?_⟩
  · have yoe := year_of_era century four one pos most is
    simp only [civilLong, ← hz, tdiv_down, ← hera]
    rw [tdiv_nonneg within.1, tdiv_nonneg within.1, tdiv_nonneg within.1]
    obtain ⟨fours, hundreds⟩ := leap_days_of century four one
    have day : z - era * 146097 - (365 * (100 * c + 4 * q + r) + (25 * c + q) - c) = doy := by
      clear yoe
      omega
    rw [tdiv_nonneg (leap_days_le within.1), yoe, fours, hundreds, day, Int.mul_comm era]
    exact month_of_day ⟨pos, small⟩
  · rw [start]
    omega
  · rcases most with short | long
    · have := (marchLength_le (100 * c + 4 * q + r + 400 * era)).1
      omega
    · rw [marchLength_parts four long.2]
      omega

theorem civilLong_of {days year day : Int} (here : marchStart year + day = days + 719468)
    (within : 0 ≤ day ∧ day < marchLength year) : civilLong days = marchDate year day := by
  obtain ⟨year', day', same, here', within'⟩ := civilLong_march days
  obtain ⟨rfl, rfl⟩ := march_unique (here'.trans here.symm) within' within
  exact same

def unixEpoch : Date := ⟨1970, 1, 1⟩

/-- The arithmetic is the calendar, from its epoch on and back. -/
theorem civilLong_plus (days : Int) : civilLong days = unixEpoch.plus days := by
  apply plus_of_next
  · decide
  · intro day
    obtain ⟨year, day, same, -, within⟩ := civilLong_march day
    rw [same]
    exact marchDate_valid within
  · intro day
    obtain ⟨year, of, same, here, within⟩ := civilLong_march day
    obtain ⟨year', of', same', there, within'⟩ := civilLong_march (day + 1)
    rw [same, same']
    exact next_of_march here within there within' (by omega)

/-! ## The first of January -/

theorem before_march {month : Int} (range : 0 ≤ month ∧ month < 10) :
    before.getD (month + 3 - 1).toNat 0 = daysBefore month + 59 := by
  have cases : month = 0 ∨ month = 1 ∨ month = 2 ∨ month = 3 ∨ month = 4 ∨ month = 5 ∨ month = 6 ∨
      month = 7 ∨ month = 8 ∨ month = 9 := by omega
  rcases cases with rfl | rfl | rfl | rfl | rfl | rfl | rfl | rfl | rfl | rfl
  all_goals rfl

theorem before_january {month : Int} (range : 10 ≤ month ∧ month ≤ 11) :
    before.getD (month - 9 - 1).toNat 0 = daysBefore month - 306 := by
  rcases (by omega : month = 10 ∨ month = 11) with rfl | rfl
  · rfl
  · rfl

/-- How far into its year a date is, by the table. -/
def ydayOf (date : Date) : Int :=
  before.getD (date.month - 1).toNat 0 + date.day - 1 +
    (if date.month > 2 ∧ isLeap date.year = true then 1 else 0)

theorem ydayOf_spring {year day : Int} (range : 0 ≤ marchMonth day ∧ marchMonth day < 10) :
    ydayOf (marchDate year day) = day + 59 + (marchLength (year - 1) - 365) := by
  have month : marchDate year day =
      ⟨year, marchMonth day + 3, day - daysBefore (marchMonth day) + 1⟩ := by
    rw [marchDate, marchYear, calendarMonth, if_pos range.2, if_pos range.2]
  rw [ydayOf, month]
  dsimp only
  rw [before_march range, marchLength, Int.sub_add_cancel]
  by_cases long : leap year
  · rw [if_pos ⟨by omega, (isLeap_eq year).2 long⟩, if_pos long]
    omega
  · rw [if_neg fun both => long ((isLeap_eq year).1 both.2), if_neg long]
    omega

theorem ydayOf_winter {year day : Int} (range : 10 ≤ marchMonth day ∧ marchMonth day ≤ 11) :
    ydayOf (marchDate year day) = day - 306 := by
  have month : marchDate year day =
      ⟨year + 1, marchMonth day - 9, day - daysBefore (marchMonth day) + 1⟩ := by
    rw [marchDate, marchYear, calendarMonth, if_neg (by omega), if_neg (by omega)]
  rw [ydayOf, month]
  dsimp only
  rw [before_january range, if_neg (by omega)]
  omega

/-- So many days before is the first of January of the same year. -/
theorem civilLong_yday (days : Int) : 0 ≤ ydayOf (civilLong days) ∧
    ydayOf (civilLong days) < 366 ∧
    civilLong (days - ydayOf (civilLong days)) = ⟨(civilLong days).year, 1, 1⟩ := by
  obtain ⟨year, day, same, here, pos, within⟩ := civilLong_march days
  have long := marchLength_le year
  have range : 0 ≤ marchMonth day ∧ marchMonth day ≤ 11 := marchMonth_range ⟨pos, by omega⟩
  have spec := marchMonth_spec day
  unfold daysBefore at spec
  rw [same]
  by_cases spring : marchMonth day < 10
  · have start := marchStart_succ (year - 1)
    have last := marchLength_le (year - 1)
    rw [Int.sub_add_cancel] at start
    rw [ydayOf_spring ⟨range.1, spring⟩]
    refine ⟨by omega, by omega, ?_⟩
    rw [@civilLong_of _ (year - 1) 306 (by omega) ⟨by decide, by omega⟩, marchDate, marchDate]
    change Date.mk (year - 1 + 1) 1 1 = Date.mk (marchYear year (marchMonth day)) 1 1
    rw [Int.sub_add_cancel, marchYear, if_pos spring]
  · rw [ydayOf_winter ⟨by omega, range.2⟩]
    refine ⟨by omega, by omega, ?_⟩
    rw [@civilLong_of _ year 306 (by omega) ⟨by decide, by omega⟩, marchDate, marchDate]
    change Date.mk (year + 1) 1 1 = Date.mk (marchYear year (marchMonth day)) 1 1
    rw [marchYear, if_neg spring]

/-! ## Dates from seconds -/

theorem int32_of {x : Int} (fits : -2147483648 ≤ x ∧ x ≤ 2147483647) : int32 x = x := by
  unfold int32
  rw [Int.bmod_def]
  omega

theorem civilFromDays_plus {days : Int} (fits : -2147483648 ≤ (unixEpoch.plus days).year ∧
    (unixEpoch.plus days).year ≤ 2147483647) : civilFromDays days = unixEpoch.plus days := by
  rw [civilFromDays, civilLong_plus, int32_of fits]

/-- The parts of a day. -/
theorem clock_parts {rest : Int} (within : 0 ≤ rest ∧ rest < 86400) :
    rest = 3600 * rest.tdiv 3600 + 60 * (rest.tmod 3600).tdiv 60 + rest.tmod 60 ∧
      (0 ≤ rest.tdiv 3600 ∧ rest.tdiv 3600 < 24) ∧
      (0 ≤ (rest.tmod 3600).tdiv 60 ∧ (rest.tmod 3600).tdiv 60 < 60) ∧
      0 ≤ rest.tmod 60 ∧ rest.tmod 60 < 60 := by
  have left : 0 ≤ rest % 3600 := by omega
  rw [tdiv_nonneg within.1, Int.tmod_eq_emod_of_nonneg within.1,
    Int.tmod_eq_emod_of_nonneg within.1, tdiv_nonneg left]
  omega

/-- The C library's date is the calendar's, with its weekday and its day of the year, before 1970
as after it. -/
theorem gmtime_calendar (seconds : Int)
    (fits : -2147481748 ≤ (unixEpoch.plus (seconds / 86400)).year ∧
      (unixEpoch.plus (seconds / 86400)).year ≤ 2147483647) :
    ∃ days, seconds = 86400 * days + 3600 * (gmtime seconds).hour + 60 * (gmtime seconds).min +
        (gmtime seconds).sec ∧
      (0 ≤ (gmtime seconds).hour ∧ (gmtime seconds).hour < 24) ∧
      (0 ≤ (gmtime seconds).min ∧ (gmtime seconds).min < 60) ∧
      (0 ≤ (gmtime seconds).sec ∧ (gmtime seconds).sec < 60) ∧
      unixEpoch.plus days =
        ⟨(gmtime seconds).year + 1900, (gmtime seconds).mon + 1, (gmtime seconds).mday⟩ ∧
      (0 ≤ (gmtime seconds).yday ∧ (gmtime seconds).yday < 366) ∧
      unixEpoch.plus (days - (gmtime seconds).yday) = ⟨(gmtime seconds).year + 1900, 1, 1⟩ ∧
      (gmtime seconds).wday = (4 + days) % 7 := by
  have date : civilFromDays (seconds / 86400) = unixEpoch.plus (seconds / 86400) :=
    civilFromDays_plus ⟨by omega, fits.2⟩
  have yday := civilLong_yday (seconds / 86400)
  obtain ⟨parts, hour, minute, second⟩ := @clock_parts (seconds % 86400) (by omega)
  rw [civilLong_plus, civilLong_plus] at yday
  refine ⟨seconds / 86400, ?_⟩
  rw [gmtime, split_eq]
  dsimp only
  rw [date, Int.sub_add_cancel, Int.sub_add_cancel, weekday_eq]
  refine ⟨by omega, hour, minute, second, rfl, ⟨yday.1, yday.2.1⟩, yday.2.2, ?_⟩
  rw [Int.add_comm]

theorem gmtime_calendar_before : (gmtime (-1)).year = 69 ∧
    ∃ days, (-1 : Int) = 86400 * days + 3600 * (gmtime (-1)).hour + 60 * (gmtime (-1)).min +
        (gmtime (-1)).sec ∧
      (0 ≤ (gmtime (-1)).hour ∧ (gmtime (-1)).hour < 24) ∧
      (0 ≤ (gmtime (-1)).min ∧ (gmtime (-1)).min < 60) ∧
      (0 ≤ (gmtime (-1)).sec ∧ (gmtime (-1)).sec < 60) ∧
      unixEpoch.plus days =
        ⟨(gmtime (-1)).year + 1900, (gmtime (-1)).mon + 1, (gmtime (-1)).mday⟩ ∧
      (0 ≤ (gmtime (-1)).yday ∧ (gmtime (-1)).yday < 366) ∧
      unixEpoch.plus (days - (gmtime (-1)).yday) = ⟨(gmtime (-1)).year + 1900, 1, 1⟩ ∧
      (gmtime (-1)).wday = (4 + days) % 7 :=
  ⟨by decide, gmtime_calendar (-1) (by decide)⟩

/-! ## Seconds from dates -/

theorem epochOf_march {date : Date} (month : 1 ≤ date.month) :
    epochOf date = (marchStart date.marchYear + date.marchDay - 719468) * 86400 := by
  obtain ⟨mp, isMp⟩ : ∃ mp, mp = date.month + (if date.month > 2 then -3 else 9) := ⟨_, rfl⟩
  have pos : 0 ≤ mp := by
    rw [isMp]
    split
    · omega
    · omega
  have days : (153 * mp + 2).tdiv 5 = daysBefore mp := tdiv_nonneg (by omega)
  have isYear : date.year - (if date.month ≤ 2 then 1 else 0) = date.marchYear := rfl
  obtain ⟨year, hyear⟩ : ∃ year, year = date.marchYear := ⟨_, rfl⟩
  have left : 0 ≤ year - year / 400 * 400 := by omega
  simp only [epochOf, isYear, ← hyear, ← isMp, days, tdiv_down_years, tdiv_nonneg left,
    Date.marchDay, marchStart]
  have fours : (year - year / 400 * 400) / 4 = year / 4 - year / 400 * 100 := by omega
  have hundreds : (year - year / 400 * 400) / 100 = year / 100 - year / 400 * 4 := by omega
  rw [fours, hundreds]
  omega

theorem civilLong_epochOf {date : Date} (valid : date.Valid) :
    ∃ days, epochOf date = 86400 * days ∧ civilLong days = date := by
  obtain ⟨is, within⟩ := date.march_of_valid valid
  refine ⟨marchStart date.marchYear + date.marchDay - 719468, ?_, ?_⟩
  · rw [epochOf_march valid.month.1, Int.mul_comm]
  · refine (civilLong_of ?_ within).trans is
    exact (Int.sub_add_cancel _ _).symm

theorem epochOf_civilLong (days : Int) : epochOf (civilLong days) = 86400 * days := by
  obtain ⟨year, day, same, here, within⟩ := civilLong_march days
  have valid : (civilLong days).Valid := by
    rw [same]
    exact marchDate_valid within
  obtain ⟨is, within'⟩ := (civilLong days).march_of_valid valid
  obtain ⟨hyear, hday⟩ := marchDate_inj within' within (is.trans same)
  rw [epochOf_march valid.month.1, hyear, hday, here]
  omega

/-- Both ways: a date's seconds are broken up into it, whatever the time of day and the zone, and
the date that seconds are broken up into has those seconds. -/
theorem breakUp_epochOf (zone : Int) :
    (∀ date : Date, date.Valid → -2147483648 ≤ date.year ∧ date.year ≤ 2147483647 →
      ∀ second, 0 ≤ second ∧ second < 86400 →
        (breakUp zone (epochOf date + second - zone * 60)).date = date ∧
        3600 * (breakUp zone (epochOf date + second - zone * 60)).hour +
          60 * (breakUp zone (epochOf date + second - zone * 60)).minute +
          (breakUp zone (epochOf date + second - zone * 60)).second = second) ∧
    ∀ seconds, -2147483648 ≤ (unixEpoch.plus ((seconds + zone * 60) / 86400)).year ∧
        (unixEpoch.plus ((seconds + zone * 60) / 86400)).year ≤ 2147483647 →
      (breakUp zone seconds).date.Valid ∧
      epochOf (breakUp zone seconds).date + 3600 * (breakUp zone seconds).hour +
        60 * (breakUp zone seconds).minute + (breakUp zone seconds).second =
          seconds + zone * 60 := by
  constructor
  · intro date valid fits second within
    obtain ⟨days, seconds, is⟩ := civilLong_epochOf valid
    obtain ⟨parts, -⟩ := clock_parts within
    have clock : epochOf date + second - zone * 60 + zone * 60 = 86400 * days + second := by
      omega
    have quotient : (86400 * days + second) / 86400 = days := by omega
    have rest : (86400 * days + second) % 86400 = second := by omega
    rw [breakUp, clock, split_eq, quotient, rest]
    dsimp only
    refine ⟨?_, parts.symm⟩
    rw [civilFromDays_plus, ← civilLong_plus, is]
    rwa [← civilLong_plus, is]
  · intro seconds fits
    obtain ⟨parts, -⟩ := @clock_parts ((seconds + zone * 60) % 86400) (by omega)
    obtain ⟨year, day, same, here, within⟩ := civilLong_march ((seconds + zone * 60) / 86400)
    rw [breakUp, split_eq]
    dsimp only
    rw [civilFromDays_plus fits, ← civilLong_plus, epochOf_civilLong]
    constructor
    · rw [same]
      exact marchDate_valid within
    · omega

theorem breakUp_epochOf_leap : (breakUp 60 (epochOf ⟨2000, 2, 29⟩ + 5 - 60 * 60)).date =
      ⟨2000, 2, 29⟩ ∧
    epochOf (breakUp 60 (-3601)).date + 3600 * (breakUp 60 (-3601)).hour +
      60 * (breakUp 60 (-3601)).minute + (breakUp 60 (-3601)).second = -3601 + 60 * 60 :=
  ⟨((breakUp_epochOf 60).1 ⟨2000, 2, 29⟩ ⟨by decide, by decide⟩ (by decide) 5 (by decide)).1,
    ((breakUp_epochOf 60).2 (-3601) (by decide)).2⟩

end ReconOS.Libc.Calendar
