/- The calendar time of drivers/rtc/rtc-lib.c, where `long` has 64 bits. -/
import LinuxKernel.Foundation.Width
import LinuxKernel.Kernel.TimeConv

namespace RtcLib

open TimeConv Width

def isLeapYear (year : Nat) : Bool := (year % 4 = 0 ∧ year % 100 ≠ 0) ∨ year % 400 = 0

def rtcMonthDays (month year : Nat) : Int :=
  [31, 28, 31, 30, 31, 30, 31, 31, 30, 31, 30, 31].getD month 0 + if isLeapYear year ∧ month = 1 then 1 else 0

def leapsThruEndOf (y : Nat) : Nat := y / 4 - y / 100 + y / 400

/-- `for (month = 0; month < 11; month++)`, with the months left, `month` and `days`. -/
def findMonth (year : Nat) : Nat → Nat → Int → Nat × Int
  | 0, month, days => (month, days)
  | left + 1, month, days =>
    let newdays := days - rtcMonthDays month year
    if newdays < 0 then (month, days) else findMonth year left (month + 1) newdays

/-- The year and the day of the year. -/
def findYear (days : Int) : Nat × Int :=
  let year := ((1970 + days.tdiv 365) % 2 ^ 32).toNat
  let prev : Nat := (year + 2 ^ 32 - 1) % 2 ^ 32
  let days := (days - ((year - 1970) * 365 + leapsThruEndOf prev - leapsThruEndOf (1970 - 1))).bmod (2 ^ 32)
  if days < 0 then (prev, days + (365 + if isLeapYear prev then 1 else 0)) else (year, days)

/-- `tm_hour`, `tm_min` and `tm_sec` from what is left of `time`. -/
def clock (time : Int) : Int × Int × Int :=
  let hour := (time / 3600).bmod (2 ^ 32)
  let time := (time - (hour * 3600).bmod (2 ^ 32)) % 2 ^ 64
  let min := (time / 60).bmod (2 ^ 32)
  (hour, min, (time - min * 60).bmod (2 ^ 32))

/-- `rtc_time_to_tm`; `days`, `year` and the fields have 32 bits. -/
def rtcTimeToTm (time : Nat) : Tm :=
  let days := (time / 86400 : Int).bmod (2 ^ 32)
  -- the product is an `unsigned int`
  let c := clock ((time - days * 86400 % 2 ^ 32) % 2 ^ 64)
  let y := findYear days
  let m := findMonth y.1 11 0 y.2
  ⟨c.2.2, c.2.1, c.1, m.2 + 1, m.1, (y.1 - 1900 : Int).bmod (2 ^ 32), (days + 4).tmod 7, y.2 + 1⟩

/-- `rtc_valid_tm` -/
def rtcValidTm (tm : Tm) : Bool :=
  ¬(tm.year < 70 ∨ 12 ≤ tm.mon % 2 ^ 32 ∨ tm.mday < 1 ∨
    rtcMonthDays tm.mon.toNat (tm.year + 1900).toNat < tm.mday ∨ 24 ≤ tm.hour % 2 ^ 32 ∨
      60 ≤ tm.min % 2 ^ 32 ∨ 60 ≤ tm.sec % 2 ^ 32)

/-- `rtc_tm_to_time` -/
def rtcTmToTime (tm : Tm) : Nat :=
  mktime ⟨uint (tm.year + 1900), uint (tm.mon + 1), uint tm.mday, uint tm.hour, uint tm.min, uint tm.sec⟩

theorem isLeapYear_eq (y : Nat) : isLeapYear y = isleap y := by
  rw [Bool.eq_iff_iff, isleap_iff]
  simp only [isLeapYear, decide_eq_true_iff]
  omega

theorem monthDays_eq (y : Nat) : ∀ m < 12, rtcMonthDays m y = monYday (isleap y) (m + 1) - monYday (isleap y) m := by
  unfold rtcMonthDays
  rw [isLeapYear_eq]
  cases isleap y <;> decide

theorem findMonth_spec {y left m : Nat} {days : Int} (sum : left + m = 11) (low : 0 ≤ days)
    (high : monYday (isleap y) m + days < monYday (isleap y) 12) : ∃ m' rest, findMonth y left m days = (m', rest) ∧
      m' < 12 ∧ 0 ≤ rest ∧ rest < rtcMonthDays m' y ∧ monYday (isleap y) m' + rest = monYday (isleap y) m + days := by
  induction left generalizing m days with
  | zero =>
    obtain rfl : m = 11 := by omega
    refine ⟨11, days, rfl, by omega, low, ?_, rfl⟩
    rw [monthDays_eq y 11 (by omega)]
    exact Int.lt_sub_left_of_add_lt high
  | succ left ih =>
    have len := monthDays_eq y m (by omega)
    rw [findMonth]
    split_ifs with inside
    · exact ⟨m, days, rfl, by omega, low, by omega, rfl⟩
    · obtain ⟨m', rest, run, lt, low', high', sum'⟩ := @ih (m + 1) (days - rtcMonthDays m y) (by omega)
        (by omega) (by omega)
      exact ⟨m', rest, run, lt, low', high', by omega⟩

/-- The first guess is the right year or the one behind it. -/
theorem findYear_spec {D : Nat} (lt : D < 49711) : ∃ y : Nat, ∃ days, findYear D = (y, days) ∧ 1970 ≤ y ∧ y ≤ 2106 ∧
    0 ≤ days ∧ days < yearLength y ∧ days + daysBefore y = D + daysBefore 1970 := by
  have guess : ((1970 + (D : Int).tdiv 365) % 2 ^ 32).toNat = 1970 + D / 365 := by
    rw [Int.tdiv_eq_ediv_of_nonneg (by omega)]
    omega
  generalize hy : 1970 + D / 365 = y at guess
  have prev : (y + 2 ^ 32 - 1) % 2 ^ 32 = y - 1 := by omega
  have next := daysBefore_succ (y - 1 : Nat)
  have len := yearLength_range (y - 1 : Nat)
  have len' := yearLength_range y
  have bounds : -35 < D + daysBefore 1970 - daysBefore y ∧ D + daysBefore 1970 - daysBefore y < 365 ∧
      (D < 365 → 0 ≤ D + daysBefore 1970 - daysBefore y) := by
    unfold daysBefore
    omega
  have left : (D - ((y - 1970 : Int) * 365 + leapsThruEndOf (y - 1) - leapsThruEndOf (1970 - 1)) : Int) =
      D + daysBefore 1970 - daysBefore y := by
    unfold leapsThruEndOf daysBefore
    omega
  have leap : (365 + if isLeapYear (y - 1) then 1 else 0 : Int) = yearLength (y - 1 : Nat) := by
    rw [isLeapYear_eq, yearLength]
    split <;> rfl
  rw [show ((y - 1 : Nat) : Int) + 1 = y by omega] at next
  rw [findYear, guess]
  simp only [prev, left, leap]
  rw [Int.bmod_eq_of_le (by omega) (by omega)]
  split_ifs with under <;> exact ⟨_, _, rfl, by omega, by omega, by omega, by omega, by omega⟩

theorem clock_eq {s : Int} (low : 0 ≤ s) (lt : s < 86400) : clock s = (s / 3600, s % 3600 / 60, s % 60) := by
  have int {x : Int} (low : 0 ≤ x) (lt : x < 86400) : x.bmod (2 ^ 32) = x := by
    rw [Int.bmod_eq_of_le] <;> omega
  rw [clock, int (by omega) (by omega), int (x := s / 3600 * 3600) (by omega) (by omega),
    show (s - s / 3600 * 3600) % 2 ^ 64 = s % 3600 by omega, int (by omega) (by omega), int (by omega) (by omega)]
  congr 2
  omega

theorem rtcTimeToTm_spec {t : Nat} (lt : t < 49711 * 86400) : ∃ d : Date, d.Valid ∧ mktime d = t ∧ rtcTimeToTm t =
    ⟨d.sec, d.min, d.hour, d.day, d.mon - 1, d.year - 1900, (4 + (t / 86400 : Nat) : Int).tmod 7, d.yday + 1⟩ := by
  have few : t / 86400 < 49711 := by omega
  have time : ((t : Int) - (t / 86400 : Nat) * 86400 % 2 ^ 32) % 2 ^ 64 = t % 86400 := by
    rw [Int.emod_eq_of_lt (b := 2 ^ 32) (by omega) (by omega)]
    omega
  have number : ((t : Int) / 86400).bmod (2 ^ 32) = (t / 86400 : Nat) := by
    rw [Int.bmod_eq_of_le] <;> omega
  obtain ⟨y, days, year, low, high, first, last, sum⟩ := findYear_spec few
  obtain ⟨zero, twelve⟩ := monYday_ends y
  obtain ⟨m, rest, month, twelfth, low', high', sum'⟩ := @findMonth_spec y 11 0 days rfl first (by omega)
  have years : ((y : Int) - 1900).bmod (2 ^ 32) = y - 1900 := by
    rw [Int.bmod_eq_of_le] <;> omega
  have len := monthDays_eq y m twelfth
  obtain ⟨day, rfl⟩ := Int.eq_ofNat_of_zero_le low'
  have valid : Date.Valid ⟨y, m + 1, day + 1, t % 86400 / 3600, t % 86400 % 3600 / 60, t % 86400 % 60⟩ := by
    constructor <;> simp only [Nat.add_sub_cancel] <;> omega
  have value := mktime_eq valid
  simp only [Date.days, Date.yday, Nat.add_sub_cancel] at value
  refine ⟨_, valid, by omega, ?_⟩
  rw [rtcTimeToTm, number, time, clock_eq (by omega) (by omega), year]
  dsimp only
  rw [month, years]
  clear number time
  simp only [Date.yday, Nat.add_sub_cancel, Tm.mk.injEq, Int.add_comm _ (4 : Int)]
  refine ⟨rfl, rfl, rfl, rfl, ?_, trivial, trivial, ?_⟩ <;> omega

theorem timeToTm_wday {n t : Nat} (hn : 0 < n) {tm : Tm} (run : timeToTm n t 0 = some tm) :
    tm.wday = (4 + (t / 86400 : Nat) : Int).tmod 7 := by
  rw [timeToTm_eq hn] at run
  obtain ⟨r, -, rfl⟩ := Option.map_eq_some_iff.mp run
  have nonneg := Int.tmod_nonneg 7 (show (0 : Int) ≤ 4 + (t / 86400 : Nat) by omega)
  rw [fields, if_neg (Int.not_lt.mpr nonneg)]

theorem rtcValidTm_of_valid {d : Date} {wday yday : Int} (h : d.Valid) :
    rtcValidTm ⟨d.sec, d.min, d.hour, d.day, d.mon - 1, d.year - 1900, wday, yday⟩ = true := by
  obtain ⟨year, mon, day, time⟩ := h
  have len := monthDays_eq d.year (d.mon - 1) (by omega)
  rw [Nat.sub_add_cancel mon.1] at len
  rw [rtcValidTm, decide_eq_true_iff, show ((d.mon : Int) - 1).toNat = d.mon - 1 by omega,
    show ((d.year : Int) - 1900 + 1900).toNat = d.year by omega, len]
  dsimp only
  omega

/-- The `struct rtc_time` of a date. -/
def rtcTime (d : Date) (wday yday : Int) : Tm :=
  ⟨d.sec, d.min, d.hour, d.day, d.mon - 1, d.year - 1900, wday, yday⟩

theorem rtcTmToTime_rtcTime {d : Date} (h : d.Valid) (wday yday : Int) :
    rtcTmToTime (rtcTime d wday yday) = mktime d := by
  have year := h.year
  have mon := h.mon
  have day := h.days_range.1
  have time := h.time
  rw [rtcTmToTime, rtcTime]
  dsimp only
  rw [uint_eq (n := d.year) (by omega) (by omega), uint_eq (n := d.mon) (by omega) (by omega),
    uint_eq rfl (by omega), uint_eq rfl (by omega), uint_eq rfl (by omega), uint_eq rfl (by omega)]

/-- From the first day on that begins 2^32 or more seconds after 1970, `(unsigned int) days * 86400` wraps. -/
theorem rtc_time_to_tm_iff {n t : Nat} (hn : 3 < n) (le : t ≤ 2 ^ 34) :
    (∃ tm, timeToTm n t 0 = some tm ∧ tm = { rtcTimeToTm t with yday := tm.yday } ∧
      rtcValidTm (rtcTimeToTm t) = true ∧
      rtcTmToTime (rtcTimeToTm t) = t) ↔ t < 49711 * 86400 := by
  constructor
  · rintro ⟨tm, -, -, valid, -⟩
    by_contra late
    have number : ((t : Int) / 86400).bmod (2 ^ 32) = (t / 86400 : Nat) := by
      rw [Int.bmod_eq_of_le] <;> omega
    have hour : (rtcTimeToTm t).hour =
        (clock ((t - ((t : Int) / 86400).bmod (2 ^ 32) * 86400 % 2 ^ 32) % 2 ^ 64)).1 := by
      rw [rtcTimeToTm]
    rw [number, clock] at hour
    obtain ⟨low, high⟩ : 49711 ≤ t / 86400 ∧ t / 86400 * 86400 ≤ t := by omega
    clear number late
    generalize t / 86400 = D at *
    have wraps : 2 ^ 32 ≤ (t : Int) - D * 86400 % 2 ^ 32 := by omega
    rw [Int.emod_eq_of_lt (by omega) (by omega), Int.bmod_eq_of_le (by omega) (by omega)] at hour
    have large : 24 ≤ (rtcTimeToTm t).hour % 2 ^ 32 := by
      rw [hour, Int.emod_eq_of_lt (by omega) (by omega)]
      omega
    rw [rtcValidTm, decide_eq_true_iff] at valid
    exact valid (by simp only [large, true_or, or_true])
  · intro lt
    obtain ⟨d, valid, value, eq⟩ := rtcTimeToTm_spec lt
    have span : daysBefore 10000 - daysBefore 1970 = 2932897 := by decide
    obtain ⟨tm, d', run, valid', ⟨wday, -, -, shows⟩, value'⟩ := @timeToTm_spec n t hn (by omega)
    obtain rfl := mktime_inj valid valid' (value.trans value'.symm)
    have week := timeToTm_wday (by omega) run
    refine ⟨tm, run, ?_, ?_, ?_⟩
    · rw [eq, ← week, shows]
    · rw [eq]
      exact rtcValidTm_of_valid valid
    · rw [eq]
      exact (rtcTmToTime_rtcTime valid _ _).trans value

theorem rtc_time_to_tm_last : ∃ tm, timeToTm 4 (49711 * 86400 - 1) 0 = some tm ∧
    tm = { rtcTimeToTm (49711 * 86400 - 1) with yday := tm.yday } ∧
      rtcValidTm (rtcTimeToTm (49711 * 86400 - 1)) = true ∧
        rtcTmToTime (rtcTimeToTm (49711 * 86400 - 1)) = 49711 * 86400 - 1 :=
  (rtc_time_to_tm_iff (by decide) (by decide)).mpr (by decide)

theorem rtc_time_to_tm_wraps : 49711 * 86400 ≤ 2 ^ 34 ∧ (rtcTimeToTm (49711 * 86400)).hour = 1193046 ∧
    rtcValidTm (rtcTimeToTm (49711 * 86400)) = false := by
  decide

/-- Each date before 2106 is valid and comes back with its day of the week and of the year. -/
theorem rtc_date_round_trip {d : Date} (h : d.Valid) (early : d.year < 2106) (wday yday : Int) :
    rtcValidTm (rtcTime d wday yday) = true ∧ rtcTimeToTm (rtcTmToTime (rtcTime d wday yday)) =
      rtcTime d ((4 + d.days).tmod 7) (d.yday + 1) := by
  have time := h.time
  have value := mktime_eq h
  have same := rtcTmToTime_rtcTime h wday yday
  obtain ⟨-, -, last⟩ := h.days_range
  have later := daysBefore_mono (show (d.year : Int) + 1 ≤ 2106 by omega)
  have span : daysBefore 2106 - daysBefore 1970 = 49673 := by decide
  obtain ⟨d', h', value', eq⟩ := @rtcTimeToTm_spec (mktime d) (by omega)
  obtain rfl := mktime_inj h' h value'
  have day : ((mktime d' / 86400 : Nat) : Int) = d'.days := by omega
  rw [same, eq, day]
  exact ⟨rtcValidTm_of_valid h, rfl⟩

theorem rtc_date_round_trip_leap_day : rtcTimeToTm (rtcTmToTime (rtcTime ⟨2000, 2, 29, 23, 59, 59⟩ 0 0)) =
    rtcTime ⟨2000, 2, 29, 23, 59, 59⟩ 2 60 :=
  (rtc_date_round_trip ⟨by decide, by decide, by decide, by decide⟩ (by decide) 0 0).2

end RtcLib
