/- Calendar time of kernel/time: time_to_tm and mktime invert each other. -/
import Mathlib.Algebra.Group.Int.Defs
import Mathlib.Algebra.Group.Nat.Defs
import Mathlib.Tactic.IntervalCases
import LinuxKernel.Foundation.Loop

namespace TimeConv

structure Tm where
  sec : Int
  min : Int
  hour : Int
  mday : Int
  mon : Int
  year : Int
  wday : Int
  yday : Int

def isleap (year : Int) : Bool := year.tmod 4 = 0 ∧ (year.tmod 100 ≠ 0 ∨ year.tmod 400 = 0)

def mathDiv (a b : Int) : Int := a.tdiv b - if a.tmod b < 0 then 1 else 0

def leapsBetween (y1 y2 : Int) : Int :=
  let leaps1 := mathDiv (y1 - 1) 4 - mathDiv (y1 - 1) 100 + mathDiv (y1 - 1) 400
  let leaps2 := mathDiv (y2 - 1) 4 - mathDiv (y2 - 1) 100 + mathDiv (y2 - 1) 400
  leaps2 - leaps1

/-- `__mon_yday`. -/
def monYday (leap : Bool) (mon : Nat) : Int :=
  (if leap then [0, 31, 60, 91, 121, 152, 182, 213, 244, 274, 305, 335, 366]
    else [0, 31, 59, 90, 120, 151, 181, 212, 243, 273, 304, 334, 365]).getD mon 0

def yearLength (y : Int) : Int := if isleap y then 366 else 365

def secsPerHour : Int := 60 * 60

def secsPerDay : Int := secsPerHour * 24

/-- A turn of `while (rem < 0)`, for `rem` and `days`. -/
def raise (s : Int × Int) : (Int × Int) ⊕ (Int × Int) :=
  if s.1 < 0 then .inl (s.1 + secsPerDay, s.2 - 1) else .inr s

/-- A turn of `while (rem >= SECS_PER_DAY)`. -/
def lower (s : Int × Int) : (Int × Int) ⊕ (Int × Int) :=
  if secsPerDay ≤ s.1 then .inl (s.1 - secsPerDay, s.2 + 1) else .inr s

/-- A turn of the loop that guesses the year, for `days` and `y`. -/
def guess (s : Int × Int) : (Int × Int) ⊕ (Int × Int) :=
  if s.1 < 0 ∨ yearLength s.2 ≤ s.1 then
    let yg := s.2 + mathDiv s.1 365
    .inl (s.1 - ((yg - s.2) * 365 + leapsBetween s.2 yg), yg)
  else .inr s

/-- `for (y = 11; days < ip[y]; y--)`; `ip[0]` is zero. -/
def monthOf (ip : Nat → Int) (days : Int) : Nat → Nat
  | 0 => 0
  | y + 1 => if days < ip (y + 1) then monthOf ip days y else y + 1

/-- What is stored, from `rem` and `days` before the guesses and from `days` and `y` after them. -/
def fields (s r : Int × Int) : Tm :=
  let rem := s.1.tmod secsPerHour
  let wday := (4 + s.2).tmod 7
  let ip := monYday (isleap r.2)
  let mon := monthOf ip r.1 11
  { hour := s.1.tdiv secsPerHour, min := rem.tdiv 60, sec := rem.tmod 60
    wday := if wday < 0 then wday + 7 else wday, year := r.2 - 1900, yday := r.1
    mon, mday := r.1 - ip mon + 1 }

/-- `time_to_tm`, where `long` has 64 bits and nothing overflows; the number bounds the turns of each loop. -/
def timeToTm (n : Nat) (totalsecs offset : Int) : Option Tm :=
  (Loop.run raise n (totalsecs.tmod secsPerDay + offset, totalsecs.tdiv secsPerDay)).bind fun s =>
    (Loop.run lower n s).bind fun s => (Loop.run guess n (s.2, 1970)).map (fields s)

structure Date where
  year : Nat
  mon : Nat
  day : Nat
  hour : Nat
  min : Nat
  sec : Nat

/-- `1..12 -> 11,12,1..10`, for `year` and `mon`; as an `int` the upper half is negative. -/
def shiftMonth (year mon : Nat) : Nat × Nat :=
  let mon := (mon + 2 ^ 32 - 2) % 2 ^ 32
  if mon = 0 ∨ 2 ^ 31 ≤ mon then ((year + 2 ^ 32 - 1) % 2 ^ 32, (mon + 12) % 2 ^ 32) else (year, mon)

/-- `mktime`, with `unsigned int` up to the cast and `unsigned long` after it. -/
def mktime (d : Date) : Nat :=
  let year := (shiftMonth d.year d.mon).1
  let mon := (shiftMonth d.year d.mon).2
  let days := (year / 4 - year / 100 + year / 400 + 367 * mon % 2 ^ 32 / 12 + d.day) % 2 ^ 32
  ((((days + year * 365 % 2 ^ 32 + 2 ^ 64 - 719499) * 24 + d.hour) * 60 + d.min) * 60 + d.sec) % 2 ^ 64

structure Date.Valid (d : Date) : Prop where
  year : 1970 ≤ d.year ∧ d.year ≤ 9999
  mon : 1 ≤ d.mon ∧ d.mon ≤ 12
  day : 1 ≤ d.day ∧ d.day ≤ monYday (isleap d.year) d.mon - monYday (isleap d.year) (d.mon - 1)
  time : d.hour < 24 ∧ d.min < 60 ∧ d.sec < 60

/-- The day of the year, from zero on. -/
def Date.yday (d : Date) : Int := monYday (isleap d.year) (d.mon - 1) + d.day - 1

/-- The fields hold the date, the day of the year and some day of the week. -/
def Tm.Shows (tm : Tm) (d : Date) : Prop :=
  ∃ wday, 0 ≤ wday ∧ wday < 7 ∧ tm = ⟨d.sec, d.min, d.hour, d.day, d.mon - 1, d.year - 1900, wday, d.yday⟩

def daysBefore (y : Int) : Int := 365 * y + ((y - 1) / 4 - (y - 1) / 100 + (y - 1) / 400)

theorem mathDiv_eq (a : Int) {b : Int} (pos : 0 < b) : mathDiv a b = a / b := by
  have low := Int.emod_nonneg a pos.ne'
  have high := Int.emod_lt_of_pos a pos
  rw [mathDiv, Int.tdiv_eq_ediv, Int.tmod_eq_emod, Int.sign_eq_one_of_pos pos]
  split <;> omega

theorem isleap_iff {y : Int} : isleap y = true ↔ y % 4 = 0 ∧ (y % 100 ≠ 0 ∨ y % 400 = 0) := by
  simp only [isleap, decide_eq_true_iff, ne_eq, ← Int.dvd_iff_tmod_eq_zero]
  omega

theorem yearLength_range (y : Int) : yearLength y = 365 ∨ yearLength y = 366 := by
  unfold yearLength
  split <;> simp

theorem daysBefore_succ (y : Int) : daysBefore (y + 1) = daysBefore y + yearLength y := by
  simp only [daysBefore, yearLength, isleap_iff, Int.add_sub_cancel]
  split <;> omega

theorem daysBefore_mono {y y' : Int} (le : y ≤ y') : daysBefore y ≤ daysBefore y' := by
  unfold daysBefore
  omega

theorem guess_eq (days y : Int) : guess (days, y) = if days < 0 ∨ yearLength y ≤ days then
    .inl (days - (daysBefore (y + days / 365) - daysBefore y), y + days / 365) else .inr (days, y) := by
  have leaps (yg : Int) : (yg - y) * 365 + leapsBetween y yg = daysBefore yg - daysBefore y := by
    simp only [leapsBetween, mathDiv_eq _ (show (0 : Int) < 4 by decide), daysBefore,
      mathDiv_eq _ (show (0 : Int) < 100 by decide), mathDiv_eq _ (show (0 : Int) < 400 by decide)]
    omega
  simp only [guess, leaps, mathDiv_eq _ (show (0 : Int) < 365 by decide)]

/-- What is left of the days: the first guess is too high by a few years, the second one too low by at most one. -/
inductive Left : Nat → Int × Int → Prop where
  | start {days : Int} (low : 0 ≤ days) (high : days < daysBefore 10000 - daysBefore 1970) : Left 3 (days, 1970)
  | under {days y : Int} (low : -2190 ≤ days) (high : days < 365) : Left 2 (days, y)
  | near {days y : Int} (low : 0 ≤ days) (high : days ≤ 366) : Left 1 (days, y)
  | done {days y : Int} (low : 0 ≤ days) (high : days < yearLength y) : Left 0 (days, y)

def Guessed (total : Int) (k : Nat) (s : Int × Int) : Prop := Left k s ∧ s.1 + daysBefore s.2 = total

theorem Guessed.turn {total : Int} {k : Nat} {s : Int × Int} (h : Guessed total k s) :
    (∃ j s', guess s = .inl s' ∧ j < k ∧ Guessed total j s') ∨ ∃ r, guess s = .inr r ∧ Guessed total 0 r := by
  obtain ⟨left, sum⟩ := h
  have sum' (yg : Int) : s.1 - (daysBefore yg - daysBefore s.2) + daysBefore yg = total := by omega
  have len := yearLength_range s.2
  have step := daysBefore_succ s.2
  rw [guess_eq]
  by_cases out : s.1 < 0 ∨ yearLength s.2 ≤ s.1
  · rw [if_pos out]
    left
    cases left with
    | start low high =>
      refine ⟨2, _, rfl, by decide, .under ?_ ?_, sum' _⟩
      all_goals
        dsimp only
        unfold daysBefore at high ⊢
        omega
    | under low high =>
      refine ⟨1, _, rfl, by decide, .near ?_ ?_, sum' _⟩
      all_goals
        dsimp only at *
        unfold daysBefore
        omega
    | @near days y low high =>
      have one : days / 365 = 1 := by
        dsimp only at *
        omega
      have len' := yearLength_range (y + 1)
      refine ⟨0, _, rfl, by decide, .done ?_ ?_, sum' _⟩
      all_goals
        dsimp only at *
        rw [one]
        omega
    | done low high => exact absurd out (by dsimp only; omega)
  · rw [if_neg out]
    exact .inr ⟨_, rfl, .done (by omega) (by omega), sum⟩

theorem monthOf_spec {ip : Nat → Int} {days : Int} (low : ip 0 ≤ days) {m : Nat} (high : days < ip (m + 1)) :
    monthOf ip days m ≤ m ∧ ip (monthOf ip days m) ≤ days ∧ days < ip (monthOf ip days m + 1) := by
  induction m with
  | zero => exact ⟨le_rfl, low, high⟩
  | succ m ih =>
    rw [monthOf]
    by_cases less : days < ip (m + 1)
    · rw [if_pos less]
      obtain ⟨le, rest⟩ := ih less
      exact ⟨Nat.le_succ_of_le le, rest⟩
    · rw [if_neg less]
      exact ⟨le_rfl, Int.not_lt.mp less, high⟩

theorem monYday_bounds : ∀ leap, ∀ m < 13, 0 ≤ monYday leap (m - 1) ∧ monYday leap m ≤ monYday leap 12 ∧
    monYday leap m - monYday leap (m - 1) ≤ 31 ∧ ∀ k < m, monYday leap k ≤ monYday leap (m - 1) := by
  decide

theorem monYday_ends (y : Int) : monYday (isleap y) 0 = 0 ∧ monYday (isleap y) 12 = yearLength y := by
  unfold yearLength
  cases isleap y <;> decide

def Date.days (d : Date) : Int := daysBefore d.year + d.yday - daysBefore 1970

section Valid

variable {d d' : Date} (h : d.Valid) (h' : d'.Valid)
include h

theorem Date.Valid.shift : ∃ year mon, shiftMonth d.year d.mon = (year, mon) ∧ year ≤ 9999 ∧ mon ≤ 12 ∧
    d.days = daysBefore (year + 1) + (367 * mon / 12 : Nat) + d.day - 719864 := by
  have first : daysBefore 1970 = 719527 := by decide
  have next := daysBefore_succ d.year
  have hy := h.year
  obtain ⟨low, high⟩ := h.mon
  rw [Date.days, Date.yday, first]
  have early : shiftMonth d.year d.mon = if d.mon ≤ 2 then (d.year - 1, d.mon + 10) else (d.year, d.mon - 2) := by
    dsimp only [shiftMonth]
    split <;> split <;> simp only [Prod.mk.injEq, true_and] <;> omega
  by_cases two : d.mon ≤ 2
  · refine ⟨_, _, early.trans (if_pos two), by omega, by omega, ?_⟩
    have same : ((d.year - 1 : Nat) : Int) + 1 = d.year := by omega
    rw [same]
    generalize d.mon = mon at *
    cases isleap d.year <;> interval_cases mon <;> simp [monYday] <;> omega
  · refine ⟨_, _, early.trans (if_neg two), by omega, by omega, ?_⟩
    rw [next, yearLength]
    generalize d.mon = mon at *
    cases isleap d.year <;> interval_cases mon <;> simp [monYday] <;> omega

theorem Date.Valid.days_range : d.day ≤ 31 ∧ daysBefore d.year ≤ d.days + daysBefore 1970 ∧
    d.days + daysBefore 1970 < daysBefore (d.year + 1) := by
  obtain ⟨first, last, short, -⟩ := monYday_bounds (isleap d.year) d.mon (Nat.lt_succ_of_le h.mon.2)
  have day := h.day
  rw [(monYday_ends d.year).2] at last
  rw [daysBefore_succ, Date.days, Date.yday]
  omega

theorem mktime_eq : (mktime d : Int) = ((d.days * 24 + d.hour) * 60 + d.min) * 60 + d.sec := by
  obtain ⟨year, mon, shift, hy, hm, days⟩ := h.shift
  obtain ⟨day, first, last⟩ := h.days_range
  have := daysBefore_mono (show (1970 : Int) ≤ d.year from Int.ofNat_le.mpr h.year.1)
  obtain ⟨D, eq⟩ := Int.eq_ofNat_of_zero_le (show 0 ≤ d.days by omega)
  have leaps : ((year / 4 - year / 100 + year / 400 + year * 365 : Nat) : Int) = daysBefore (year + 1) - 365 := by
    unfold daysBefore
    omega
  have few : year / 4 - year / 100 + year / 400 ≤ 9999 ∧ 367 * mon / 12 ≤ 367 := by omega
  have time := h.time
  rw [mktime, shift]
  dsimp only
  rw [Nat.mod_eq_of_lt (show 367 * mon < 2 ^ 32 by omega), Nat.mod_eq_of_lt (show year * 365 < 2 ^ 32 by omega)]
  generalize 367 * mon / 12 = months at *
  generalize year / 4 - year / 100 + year / 400 = leap at *
  rw [Nat.mod_eq_of_lt (show leap + months + d.day < 2 ^ 32 by omega)]
  have whole : leap + months + d.day + year * 365 + 2 ^ 64 - 719499 = D + 2 ^ 64 := by omega
  rw [whole, eq]
  omega

include h'

theorem Date.Valid.year_le (same : d.days = d'.days) : d.year ≤ d'.year := by
  by_contra gt
  obtain ⟨-, first, -⟩ := h.days_range
  obtain ⟨-, -, last⟩ := h'.days_range
  have := daysBefore_mono (show (d'.year : Int) + 1 ≤ d.year by omega)
  omega

theorem Date.Valid.mon_le (year : d.year = d'.year) (same : d.days = d'.days) : d.mon ≤ d'.mon := by
  by_contra gt
  obtain ⟨-, -, -, later⟩ := monYday_bounds (isleap d.year) d.mon (Nat.lt_succ_of_le h.mon.2)
  have := later d'.mon (by omega)
  have day := h.day
  have day' := h'.day
  rw [Date.days, Date.days, Date.yday, Date.yday, ← year] at same
  rw [← year] at day'
  omega

theorem mktime_inj (same : mktime d = mktime d') : d = d' := by
  have eq := mktime_eq h
  rw [same, mktime_eq h'] at eq
  have time := h.time
  have time' := h'.time
  have days : d.days = d'.days := by omega
  have year := Nat.le_antisymm (h.year_le h' days) (h'.year_le h days.symm)
  have mon := Nat.le_antisymm (h.mon_le h' year days) (h'.mon_le h year.symm days.symm)
  have day := days
  rw [Date.days, Date.days, Date.yday, Date.yday, year, mon] at day
  obtain ⟨_, _, _, _, _, _⟩ := d
  obtain ⟨_, _, _, _, _, _⟩ := d'
  simp only [Date.mk.injEq] at *
  omega

end Valid

/-- Without an offset the first two loops end at once. -/
theorem timeToTm_eq {n : Nat} (hn : 0 < n) (t : Nat) : timeToTm n t 0 =
    (Loop.run guess n ((t / 86400 : Nat), 1970)).map (fields ((t % 86400 : Nat), (t / 86400 : Nat))) := by
  obtain ⟨k, rfl⟩ : ∃ k, n = k + 1 := ⟨n - 1, by omega⟩
  have start : ((t : Int).tmod secsPerDay + 0, (t : Int).tdiv secsPerDay) =
      (((t % 86400 : Nat) : Int), ((t / 86400 : Nat) : Int)) := rfl
  have day : secsPerDay = 86400 := rfl
  have up : raise ((t % 86400 : Nat), (t / 86400 : Nat)) = .inr _ := if_neg (by dsimp only; omega)
  have down : lower ((t % 86400 : Nat), (t / 86400 : Nat)) = .inr _ := if_neg (by dsimp only; omega)
  rw [timeToTm, start, Loop.run, up, Option.bind_some, Loop.run, down, Option.bind_some]

theorem timeToTm_spec {n t : Nat} (hn : 3 < n) (small : (t / 86400 : Nat) < daysBefore 10000 - daysBefore 1970) :
    ∃ tm d, timeToTm n t 0 = some tm ∧ d.Valid ∧ tm.Shows d ∧ mktime d = t := by
  obtain ⟨⟨days, y⟩, run, left, sum⟩ := Loop.run_total guess (Guessed ((t / 86400 : Nat) + daysBefore 1970)) _
    (fun k s h => h.turn) ⟨.start (by omega) small, rfl⟩ hn
  cases left with
  | done low high =>
    have year : 1970 ≤ y ∧ y ≤ 9999 := by
      have next := daysBefore_succ y
      have early := fun le => @daysBefore_mono (y + 1) 1970 le
      have late := fun le => @daysBefore_mono 10000 y le
      dsimp only at sum
      omega
    obtain ⟨zero, twelve⟩ := monYday_ends y
    obtain ⟨le, first, last⟩ := @monthOf_spec (monYday (isleap y)) days (zero ▸ low) 11 (twelve ▸ high)
    generalize hm : monthOf (monYday (isleap y)) days 11 = m at *
    obtain ⟨y, rfl⟩ := Int.eq_ofNat_of_zero_le (show 0 ≤ y by omega)
    obtain ⟨day, hd⟩ := Int.eq_ofNat_of_zero_le (show 0 ≤ days - monYday (isleap y) m + 1 by omega)
    have valid : Date.Valid ⟨y, m + 1, day, t % 86400 / 3600, t % 86400 % 3600 / 60, t % 86400 % 3600 % 60⟩ := by
      constructor <;> simp only [Nat.add_sub_cancel] <;> omega
    have yday : days = monYday (isleap y) m + day - 1 := by omega
    refine ⟨_, _, (timeToTm_eq (by omega) t).trans (by rw [run, Option.map_some]), valid, ?_, ?_⟩
    · have week : (4 + ((t / 86400 : Nat) : Int)).tmod 7 = ((4 + t / 86400) % 7 : Nat) := rfl
      refine ⟨((4 + t / 86400) % 7 : Nat), by omega, by omega, ?_⟩
      rw [fields, if_neg (by rw [week]; omega)]
      simp only [hm, hd, Date.yday, Nat.add_sub_cancel, ← yday, Nat.cast_succ, Int.add_sub_cancel]
      rfl
    · have value := mktime_eq valid
      simp only [Date.days, Date.yday, Nat.add_sub_cancel, ← yday] at value
      dsimp only at sum
      omega

/-- From 1970 to 9999 the two functions invert each other. -/
theorem time_to_tm_inverts {n : Nat} (hn : 3 < n) :
    (∀ t < mktime ⟨10000, 1, 1, 0, 0, 0⟩, ∃ tm d, timeToTm n t 0 = some tm ∧ d.Valid ∧ tm.Shows d ∧ mktime d = t) ∧
    ∀ d : Date, d.Valid → ∃ tm, timeToTm n (mktime d) 0 = some tm ∧ tm.Shows d := by
  have span : daysBefore 10000 - daysBefore 1970 = 2932897 := by decide
  have limit : mktime ⟨10000, 1, 1, 0, 0, 0⟩ = 86400 * 2932897 := by decide
  constructor
  · intro t lt
    exact timeToTm_spec hn (by omega)
  · intro d valid
    have small : (mktime d / 86400 : Nat) < daysBefore 10000 - daysBefore 1970 := by
      obtain ⟨-, -, last⟩ := valid.days_range
      have := daysBefore_mono (show (d.year : Int) + 1 ≤ 10000 by have := valid.year; omega)
      have := mktime_eq valid
      have := valid.time
      omega
    obtain ⟨tm, d', run, valid', shows, same⟩ := timeToTm_spec hn small
    exact ⟨tm, run, mktime_inj valid' valid same ▸ shows⟩

theorem time_to_tm_inverts_leap_day :
    ∃ tm, timeToTm 4 (mktime ⟨2000, 2, 29, 23, 59, 59⟩) 0 = some tm ∧ tm.Shows ⟨2000, 2, 29, 23, 59, 59⟩ :=
  (time_to_tm_inverts (by decide)).2 _ ⟨by decide, by decide, by decide, by decide⟩

end TimeConv
