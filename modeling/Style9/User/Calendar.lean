import Mathlib.Tactic.IntervalCases

/-!
# The calendar of the C library

`days_from_civil`, `civil_from_days` and `gmtime_r`. Both directions count from 1 March of the
year 0, so the proofs go through the years that start in March: a day is such a year and a day in
it, and every date is one of those.
-/

namespace Style9.User

open List

/-- A 32-bit `int`, with the wrap of the machine. -/
def int32 (x : Int) : Int := x.bmod (2 ^ 32)

def int64 (x : Int) : Int := x.bmod (2 ^ 64)

structure Date where
  year : Int
  month : Nat
  day : Nat
  deriving DecidableEq

def daysFromCivil (c : Date) : Int :=
  let y := int32 (c.year - if c.month ≤ 2 then 1 else 0)
  let era := (if 0 ≤ y then y else int32 (y - 399)).tdiv 400
  let yoe := ((y - era * 400) % 2 ^ 32).toNat
  let mp := if c.month > 2 then c.month - 3 else c.month + 9
  let doy := ((153 * mp + 2) % 2 ^ 32 / 5 + c.day + (2 ^ 32 - 1)) % 2 ^ 32
  let doe : Nat := (yoe * 365 + yoe / 4 - yoe / 100 + doy) % 2 ^ 32
  era * 146097 + doe - 719468

def civilFromDays (z : Int) : Date :=
  let z := int64 (z + 719468)
  let era := (if 0 ≤ z then z else int64 (z - 146096)).tdiv 146097
  let doe := ((z - era * 146097) % 2 ^ 64).toNat
  let yoe : Nat := (doe - doe / 1460 + doe / 36524 - doe / 146096) / 365
  let y : Int := yoe + era * 400
  let doy := doe - (365 * yoe + yoe / 4 - yoe / 100)
  let mp := (5 * doy + 2) / 153
  let m := if mp < 10 then mp + 3 else mp - 9
  ⟨int32 (y + if m ≤ 2 then 1 else 0), m, doy - (153 * mp + 2) / 5 + 1⟩

structure Tm where
  tmSec : Int
  tmMin : Int
  tmHour : Int
  tmMday : Int
  tmMon : Int
  tmYear : Int
  tmWday : Int
  tmYday : Int
  tmIsdst : Int
  tmGmtoff : Int
  tmZone : String

/-- `gmtime_r` with both pointers given. -/
def gmtimeR (secs : Int) : Tm :=
  let rem := secs.tmod 86400
  let days := if rem < 0 then secs.tdiv 86400 - 1 else secs.tdiv 86400
  let rem := if rem < 0 then rem + 86400 else rem
  let date := civilFromDays days
  { tmSec := rem.tmod 60
    tmMin := (rem.tdiv 60).tmod 60
    tmHour := rem.tdiv 3600
    tmMday := date.day
    tmMon := date.month - 1
    tmYear := int32 (date.year - 1900)
    tmWday := (days.tmod 7 + 11).tmod 7
    tmYday := int32 (days - daysFromCivil ⟨date.year, 1, 1⟩)
    tmIsdst := 0
    tmGmtoff := 0
    tmZone := "UTC" }

def Leap (y : Int) : Prop := y % 4 = 0 ∧ (y % 100 ≠ 0 ∨ y % 400 = 0)

instance (y : Int) : Decidable (Leap y) := inferInstanceAs (Decidable (_ ∧ _))

def monthDays (y : Int) (m : Nat) : Nat :=
  if m = 2 then if Leap y then 29 else 28 else if m ∈ [4, 6, 9, 11] then 30 else 31

/-- A date of the proleptic Gregorian calendar. -/
def Date.Valid (c : Date) : Prop :=
  (1 ≤ c.month ∧ c.month ≤ 12) ∧ 1 ≤ c.day ∧ c.day ≤ monthDays c.year c.month

/-- The year of the date when years start in March. -/
def Date.marchYear (c : Date) : Int := c.year - if c.month ≤ 2 then 1 else 0

/-- The day of that year, from 0. -/
def Date.marchDoy (c : Date) : Nat :=
  (153 * (if c.month > 2 then c.month - 3 else c.month + 9) + 2) / 5 + c.day - 1

/-- A date `days_from_civil` can take: where the year is negative it takes 399 from it. -/
def Date.Fits (c : Date) : Prop := c.Valid ∧ -2 ^ 31 + 399 ≤ c.marchYear ∧ c.year < 2 ^ 31

/-- Earlier in the calendar. -/
def Date.Before (a b : Date) : Prop :=
  a.year < b.year ∨ a.year = b.year ∧ (a.month < b.month ∨ a.month = b.month ∧ a.day < b.day)

/-- The day `doy` of the year that starts in March of `y`. -/
def March (y : Int) (doy : Nat) : Prop := doy ≤ 365 ∧ (doy = 365 → Leap (y + 1))

/-- The number of that day, from 1 March of the year 0. -/
def marchDay (y : Int) (doy : Nat) : Int := 365 * y + y / 4 - y / 100 + y / 400 + doy

/-- Its date. -/
def ofMarch (y : Int) (doy : Nat) : Date :=
  let mp := (5 * doy + 2) / 153
  let m := if mp < 10 then mp + 3 else mp - 9
  ⟨y + if m ≤ 2 then 1 else 0, m, doy - (153 * mp + 2) / 5 + 1⟩

variable {x y y' z era : Int} {q r n doy doy' : Nat} {a b c : Date}

theorem int32_of (low : -2 ^ 31 ≤ x) (high : x < 2 ^ 31) : int32 x = x :=
  Int.bmod_eq_of_le (by simpa using low) (by simpa using high)

/-- The division by which both functions find the era is the one that rounds down. -/
theorem tdiv_floor {k : Int} (pos : 0 < k) : (if 0 ≤ x then x else x - (k - 1)).tdiv k = x / k := by
  split
  next nonneg => exact Int.tdiv_eq_ediv_of_nonneg nonneg
  next neg =>
    have parts : -(x - (k - 1)) = k - 1 - x % k + k * -(x / k) := by
      have := Int.mul_ediv_add_emod x k
      grind
    have low := Int.emod_nonneg x pos.ne'
    have high := Int.emod_lt_of_pos x pos
    rw [← Int.neg_neg (x - (k - 1)), Int.neg_tdiv, Int.tdiv_eq_ediv_of_nonneg (by omega), parts,
      Int.add_mul_ediv_left _ _ pos.ne', Int.ediv_eq_zero_of_lt (by omega) (by omega)]
    omega

section
variable (era) (hn : n < 4) (hq : q < 25) (hr : r < 4)
include hn hq hr

/-- A day counted from the era, its century, its four years and the year. -/
theorem marchDay_parts : marchDay (400 * era + (100 * n + 4 * q + r : Nat)) doy =
    146097 * era + (36524 * n + 1461 * q + 365 * r + doy : Nat) := by
  have four : (400 * era + (100 * n + 4 * q + r : Nat)) / 4 = 100 * era + 25 * n + q := by omega
  have century : (400 * era + (100 * n + 4 * q + r : Nat)) / 100 = 4 * era + n := by omega
  have whole : (400 * era + (100 * n + 4 * q + r : Nat)) / 400 = era := by omega
  unfold marchDay
  omega

theorem march_parts : March (400 * era + (100 * n + 4 * q + r : Nat)) doy ↔
    doy ≤ 365 ∧ (doy = 365 → r = 3 ∧ (q < 24 ∨ n = 3)) := by
  unfold March Leap
  omega

/-- The year of the era as `civil_from_days` takes it from the day of the era. -/
theorem year_of_era {doe : Nat} (short : doy ≤ 365) (last : doy = 365 → r = 3 ∧ (q < 24 ∨ n = 3))
    (count : 36524 * n + 1461 * q + 365 * r + doy = doe) :
    (doe - doe / 1460 + doe / 36524 - doe / 146096) / 365 = 100 * n + 4 * q + r := by
  have ends : doe / 146096 = if n = 3 ∧ q = 24 ∧ r = 3 ∧ doy = 365 then 1 else 0 := by
    split <;> omega
  have century : doe / 36524 = n + doe / 146096 := by split at ends <;> omega
  have year : 365 * (100 * n + 4 * q + r) ≤ doe - doe / 1460 + n ∧
      doe - doe / 1460 + n < 365 * (100 * n + 4 * q + r) + 365 := by
    interval_cases n <;> omega
  omega

end

/-- Every day is a day of one of these years. -/
theorem exists_march (z : Int) : ∃ y doy, March y doy ∧ z = marchDay y doy := by
  obtain ⟨era, doe, high, rfl⟩ : ∃ (era : Int) (doe : Nat), doe < 146097 ∧ z = 146097 * era + doe :=
    ⟨z / 146097, (z % 146097).toNat, by omega⟩
  -- the last century of an era and the last year of four are a day longer
  obtain ⟨n, rest, hn, high, last, rfl⟩ : ∃ n rest, n < 4 ∧ rest ≤ 36524 ∧ (rest = 36524 → n = 3) ∧
      doe = 36524 * n + rest := ⟨min (doe / 36524) 3, doe - 36524 * min (doe / 36524) 3, by omega⟩
  have hq : rest / 1461 < 25 := by omega
  have hr : min (rest % 1461 / 365) 3 < 4 := by omega
  refine ⟨_, rest % 1461 - 365 * min (rest % 1461 / 365) 3, (march_parts era hn hq hr).mpr ?_, ?_⟩
  · omega
  · rw [marchDay_parts era hn hq hr]
    omega

theorem ofMarch_valid (march : March y doy) : (ofMarch y doy).Valid := by
  obtain ⟨low, leap⟩ := march
  obtain ⟨mp, month⟩ : ∃ mp, (5 * doy + 2) / 153 = mp := ⟨_, rfl⟩
  have last : mp < 12 := by omega
  simp only [ofMarch, Date.Valid, monthDays, month]
  interval_cases mp <;> simp <;> (try split) <;> grind

/-- Every date is the date of one of these days. -/
theorem Date.Valid.march (valid : c.Valid) :
    March c.marchYear c.marchDoy ∧ ofMarch c.marchYear c.marchDoy = c := by
  obtain ⟨y, m, d⟩ := c
  obtain ⟨⟨first, last⟩, low, high⟩ := valid
  simp only [March, ofMarch, marchYear, marchDoy] at *
  unfold monthDays at high
  interval_cases m <;> simp at high ⊢ <;> (try split at high) <;> grind

/-- The day of the year as `days_from_civil` computes it, in words. -/
theorem Date.Valid.dayOfYear (valid : c.Valid) :
    ((153 * (if c.month > 2 then c.month - 3 else c.month + 9) + 2) % 2 ^ 32 / 5 + c.day +
      (2 ^ 32 - 1)) % 2 ^ 32 = c.marchDoy := by
  obtain ⟨⟨first, last⟩, low, high⟩ := valid
  have short : monthDays c.year c.month ≤ 31 := by
    unfold monthDays
    split_ifs <;> decide
  have month : (if c.month > 2 then c.month - 3 else c.month + 9) ≤ 11 := by
    split <;> omega
  unfold marchDoy
  rw [Nat.mod_eq_of_lt (by omega : 153 * _ + 2 < 2 ^ 32)]
  omega

theorem daysFromCivil_eq (ok : c.Fits) :
    daysFromCivil c = marchDay c.marchYear c.marchDoy - 719468 := by
  obtain ⟨valid, low, high⟩ := ok
  have short := valid.march.1.1
  have top : c.marchYear < 2 ^ 31 := by
    unfold Date.marchYear
    omega
  have march : c.year - (if c.month ≤ 2 then 1 else 0) = c.marchYear := rfl
  obtain ⟨era, yoe, below, parts⟩ : ∃ (era : Int) (yoe : Nat), yoe < 400 ∧
      c.marchYear = 400 * era + yoe := ⟨c.marchYear / 400, (c.marchYear % 400).toNat, by omega⟩
  have floor := tdiv_floor (x := 400 * era + yoe) (k := 400) (by decide)
  have down : (400 * era + yoe) / 400 = era := by omega
  have rest : ((400 * era + yoe - era * 400) % 2 ^ 32).toNat = yoe := by omega
  have four : (400 * era + yoe) / 4 = 100 * era + (yoe / 4 : Nat) := by omega
  have century : (400 * era + yoe) / 100 = 4 * era + (yoe / 100 : Nat) := by omega
  rw [parts] at low top
  simp only [Int.reduceSub, down] at floor
  simp only [daysFromCivil, valid.dayOfYear, march, parts, int32_of (by omega) top, floor, rest,
    marchDay, down, four, century, int32_of (x := 400 * era + yoe - 399) (by omega) (by omega)]
  omega

theorem civilFromDays_eq (march : March y doy) (low : -2 ^ 31 ≤ (ofMarch y doy).year)
    (high : (ofMarch y doy).year < 2 ^ 31) :
    civilFromDays (marchDay y doy - 719468) = ofMarch y doy := by
  have year : (ofMarch y doy).year - 1 ≤ y ∧ y ≤ (ofMarch y doy).year := by
    simp only [ofMarch]
    omega
  obtain ⟨era, n, q, r, hn, hq, hr, rfl⟩ : ∃ (era : Int) (n q r : Nat), n < 4 ∧ q < 25 ∧ r < 4 ∧
      y = 400 * era + (100 * n + 4 * q + r : Nat) :=
    ⟨y / 400, (y % 400 / 100).toNat, (y % 100 / 4).toNat, (y % 4).toNat, by omega⟩
  obtain ⟨short, last⟩ := (march_parts era hn hq hr).mp march
  rw [marchDay_parts era hn hq hr]
  obtain ⟨doe, count⟩ : ∃ doe, 36524 * n + 1461 * q + 365 * r + doy = doe := ⟨_, rfl⟩
  have fits : int64 (146097 * era + doe - 719468 + 719468) = 146097 * era + doe := by
    unfold int64
    rw [Int.bmod_eq_of_le] <;> omega
  have fits' : int64 (146097 * era + doe - 146096) = 146097 * era + doe - 146096 :=
    Int.bmod_eq_of_le (by omega) (by omega)
  have floor := tdiv_floor (x := 146097 * era + doe) (k := 146097) (by decide)
  have down : (146097 * era + doe) / 146097 = era := by omega
  have rest : ((146097 * era + doe - era * 146097) % 2 ^ 64).toNat = doe := by omega
  have day : doe - (365 * (100 * n + 4 * q + r) + (100 * n + 4 * q + r) / 4 -
      (100 * n + 4 * q + r) / 100) = doy := by
    have four : (100 * n + 4 * q + r) / 4 = 25 * n + q := by omega
    have century : (100 * n + 4 * q + r) / 100 = n := by omega
    omega
  simp only [Int.reduceSub, down] at floor
  simp only [civilFromDays, count, fits, fits', floor, rest, year_of_era hn hq hr short last count,
    day]
  rw [int32_of]
  all_goals grind [ofMarch]

/-- The days are counted in the order of the years. -/
theorem marchDay_lt (march : March y doy) (later : y < y') : marchDay y doy < marchDay y' doy' := by
  obtain ⟨short, last⟩ := march
  have next : marchDay y doy < marchDay (y + 1) 0 := by
    unfold Leap at last
    unfold marchDay
    omega
  have more : marchDay (y + 1) 0 ≤ marchDay y' doy' := by
    unfold marchDay
    omega
  omega

theorem march_ofMarch (short : doy ≤ 365) :
    (ofMarch y doy).marchYear = y ∧ (ofMarch y doy).marchDoy = doy := by
  simp only [ofMarch, Date.marchYear, Date.marchDoy]
  grind

theorem marchDay_lt_of_before (valid : a.Valid) (valid' : b.Valid) (before : a.Before b) :
    marchDay a.marchYear a.marchDoy < marchDay b.marchYear b.marchDoy := by
  obtain ⟨march, date⟩ := valid.march
  obtain ⟨march', date'⟩ := valid'.march
  have order : a.marchYear < b.marchYear ∨ a.marchYear = b.marchYear ∧ a.marchDoy < b.marchDoy := by
    have short := march.1
    have short' := march'.1
    rw [← date, ← date'] at before
    simp only [ofMarch, Date.Before] at before
    grind
  rcases order with less | ⟨same, less⟩
  · exact marchDay_lt march less
  · rw [same]
    unfold marchDay
    omega

theorem before_of_lt (ok : a.Fits) (ok' : b.Fits) (less : daysFromCivil a < daysFromCivil b) :
    a.Before b := by
  by_contra late
  have order : a = b ∨ b.Before a := by
    cases a
    cases b
    grind [Date.Before]
  rcases order with rfl | back
  · omega
  · have := marchDay_lt_of_before ok'.1 ok.1 back
    rw [daysFromCivil_eq ok, daysFromCivil_eq ok'] at less
    omega

/-- The days from the date `first` to the last of the years that fit an `int`. -/
def Since (first : Date) (z : Int) : Prop :=
  daysFromCivil first ≤ z ∧ z ≤ daysFromCivil ⟨2 ^ 31 - 1, 12, 31⟩

/-- Such a day is the day of one date, the one that `civil_from_days` gives. -/
theorem civilFromDays_spec (first : a.Fits) (since : Since a z) :
    (civilFromDays z).Fits ∧ ¬ (civilFromDays z).Before a ∧
      daysFromCivil (civilFromDays z) = z := by
  obtain ⟨after, before⟩ := since
  obtain ⟨year, doy, march, day⟩ := exists_march (z + 719468)
  obtain rfl : z = marchDay year doy - 719468 := by omega
  have valid := ofMarch_valid march
  obtain ⟨same, same'⟩ := march_ofMarch (y := year) march.1
  have last : Date.Fits ⟨2 ^ 31 - 1, 12, 31⟩ :=
    ⟨by simp [Date.Valid, monthDays], by decide, by decide⟩
  rw [daysFromCivil_eq first] at after
  rw [daysFromCivil_eq last] at before
  have late : ¬ (ofMarch year doy).Before a := by
    intro early
    have := marchDay_lt_of_before valid first.1 early
    rw [same, same'] at this
    omega
  have year_ge : a.marchYear ≤ year := by
    by_contra less
    have : marchDay year doy < marchDay a.marchYear a.marchDoy := marchDay_lt march (not_le.mp less)
    omega
  have year_lt : (ofMarch year doy).year < 2 ^ 31 := by
    by_contra more
    have := marchDay_lt_of_before last.1 valid (.inl (by change _ - 1 < _; omega))
    rw [same, same'] at this
    omega
  have fits : (ofMarch year doy).Fits := ⟨valid, same.symm ▸ first.2.1.trans year_ge, year_lt⟩
  have low : -2 ^ 31 ≤ (ofMarch year doy).year := by
    have := first.2.1
    simp only [ofMarch]
    omega
  rw [civilFromDays_eq march low year_lt, daysFromCivil_eq fits, same, same']
  exact ⟨fits, late, rfl⟩

/-- The first date whose year fits an `int` along with `tm_year`. -/
def firstTm : Date := ⟨-2 ^ 31 + 1900, 1, 1⟩

theorem firstTm_fits : firstTm.Fits := ⟨by unfold Date.Valid; decide, by decide, by decide⟩

theorem civilFromDays_tm (since : Since firstTm z) :
    (civilFromDays z).Fits ∧ -2 ^ 31 + 1900 ≤ (civilFromDays z).year ∧
      daysFromCivil (civilFromDays z) = z := by
  obtain ⟨fits, late, back⟩ := civilFromDays_spec firstTm_fits since
  exact ⟨fits, not_lt.mp fun early => late (.inl early), back⟩

/-- The day of the year is counted by the lengths of the months before. -/
theorem yearDay_eq (ok : c.Fits) (low : -2 ^ 31 + 1900 ≤ c.year) :
    int32 (daysFromCivil c - daysFromCivil ⟨c.year, 1, 1⟩) + 1 =
      ((range (c.month - 1)).map fun k => monthDays c.year (k + 1)).sum + c.day := by
  have new : Date.Fits ⟨c.year, 1, 1⟩ :=
    ⟨by simp [Date.Valid, monthDays], by change _ ≤ c.year - 1; omega, ok.2.2⟩
  rw [daysFromCivil_eq ok, daysFromCivil_eq new]
  obtain ⟨y, m, d⟩ := c
  obtain ⟨⟨⟨first, last⟩, one, short⟩, -⟩ := ok
  simp only [Date.marchYear, Date.marchDoy, marchDay, monthDays, Leap] at *
  rw [int32_of]
  · interval_cases m <;> simp [range_succ] <;> grind
  · grind
  · grind

def Tm.date (tm : Tm) : Date := ⟨tm.tmYear + 1900, tm.tmMon.toNat + 1, tm.tmMday.toNat⟩

/-- The fields of `tm` that are right for the time `t`. -/
structure Tm.Right (tm : Tm) (t : Int) : Prop where
  valid : tm.date.Valid
  clock : (0 ≤ tm.tmHour ∧ tm.tmHour < 24) ∧ (0 ≤ tm.tmMin ∧ tm.tmMin < 60) ∧
    0 ≤ tm.tmSec ∧ tm.tmSec < 60
  time : daysFromCivil tm.date * 86400 + (tm.tmHour * 3600 + tm.tmMin * 60 + tm.tmSec) = t
  /-- 1 January 1970 was a Thursday. -/
  weekday : tm.tmWday = (t / 86400 + 4) % 7
  yearDay : tm.tmYday + 1 =
    ((range (tm.date.month - 1)).map fun k => monthDays tm.date.year (k + 1)).sum + tm.date.day

/-- The order of the broken-down times. -/
def Tm.key (tm : Tm) : List Int := [tm.tmYear, tm.tmMon, tm.tmMday, tm.tmHour, tm.tmMin, tm.tmSec]

/-- The floor division of `gmtime_r` and the divisions of what it leaves. -/
theorem clock_eq (t : Int) :
    (if t.tmod 86400 < 0 then t.tdiv 86400 - 1 else t.tdiv 86400) = t / 86400 ∧
    (if t.tmod 86400 < 0 then t.tmod 86400 + 86400 else t.tmod 86400) = t % 86400 ∧
    ((t / 86400).tmod 7 + 11).tmod 7 = (t / 86400 + 4) % 7 := by
  simp only [Int.tdiv_eq_ediv, Int.tmod_eq_emod]
  grind

section

variable {t : Int} (years : Since firstTm (t / 86400))
include years

theorem gmtimeR_key : (gmtimeR t).key = [(civilFromDays (t / 86400)).year - 1900,
    (civilFromDays (t / 86400)).month - 1, (civilFromDays (t / 86400)).day, t % 86400 / 3600,
    t % 86400 / 60 % 60, t % 60] := by
  obtain ⟨days, rem, -⟩ := clock_eq t
  obtain ⟨⟨-, -, high⟩, low, -⟩ := civilFromDays_tm years
  have year := int32_of (x := (civilFromDays (t / 86400)).year - 1900) (by omega) (by omega)
  simp only [Tm.key, gmtimeR, days, rem, year]
  grind

theorem gmtimeR_right : (gmtimeR t).Right t := by
  obtain ⟨days, rem, week⟩ := clock_eq t
  obtain ⟨fits, low, back⟩ := civilFromDays_tm years
  have date : (gmtimeR t).date = civilFromDays (t / 86400) := by
    have key := gmtimeR_key years
    have first := fits.1.1.1
    simp only [Tm.key, cons.injEq] at key
    simp only [Tm.date, key]
    generalize civilFromDays (t / 86400) = c at *
    cases c
    simp at *
    omega
  refine ⟨date ▸ fits.1, ?_, ?_, ?_, ?_⟩
  · simp only [gmtimeR, rem]
    grind
  · rw [date, back]
    simp only [gmtimeR, rem]
    grind
  · simp only [gmtimeR, days, week]
  · rw [date, ← yearDay_eq fits low, back]
    simp only [gmtimeR, days]

end

/-- `gmtime_r` gives the proleptic Gregorian date of every time whose year fits an `int` along with
`tm_year`, later times give later dates and times of day, and the two conversions are inverse to
each other from 1 March of the year `-2^31 + 399` on. -/
theorem gmtime_is_gregorian :
    (∀ t, Since firstTm (t / 86400) → (gmtimeR t).Right t) ∧
    (∀ t t', Since firstTm (t / 86400) → Since firstTm (t' / 86400) → t < t' →
      (gmtimeR t).key < (gmtimeR t').key) ∧
    (∀ c : Date, c.Fits → civilFromDays (daysFromCivil c) = c) ∧
    ∀ z, Since ⟨-2 ^ 31 + 399, 3, 1⟩ z →
      (civilFromDays z).Valid ∧ daysFromCivil (civilFromDays z) = z := by
  refine ⟨fun t years => gmtimeR_right years, fun t t' years years' less => ?_, fun c fits => ?_,
    fun z since => ?_⟩
  · obtain ⟨fits, -, back⟩ := civilFromDays_tm years
    obtain ⟨fits', -, back'⟩ := civilFromDays_tm years'
    rw [gmtimeR_key years, gmtimeR_key years']
    simp only [cons_lt_cons_iff]
    by_cases same : t / 86400 = t' / 86400
    · rw [same]
      grind
    · have before := before_of_lt fits fits' (by omega)
      grind [Date.Before]
  · obtain ⟨march, date⟩ := fits.1.march
    have low : -2 ^ 31 ≤ c.year := by
      have := fits.2.1
      unfold Date.marchYear at this
      omega
    rw [daysFromCivil_eq fits, civilFromDays_eq march, date]
    · rwa [date]
    · rw [date]
      exact fits.2.2
  · have first : Date.Fits ⟨-2 ^ 31 + 399, 3, 1⟩ :=
      ⟨by unfold Date.Valid; decide, by decide, by decide⟩
    obtain ⟨fits, -, back⟩ := civilFromDays_spec first since
    exact ⟨fits.1, back⟩

/-- The last second of 1969 and the first of 1970; 29 February 2000; the first day of all. -/
theorem gmtime_is_gregorian_epoch : (gmtimeR (-1)).Right (-1) ∧
    (gmtimeR (-1)).key < (gmtimeR 0).key ∧
    civilFromDays (daysFromCivil ⟨2000, 2, 29⟩) = ⟨2000, 2, 29⟩ ∧
    daysFromCivil (civilFromDays (-784351576777)) = -784351576777 := by
  have eve : Since firstTm (-1 / 86400) := by unfold Since; decide
  have epoch : Since firstTm (0 / 86400) := by unfold Since; decide
  exact ⟨gmtime_is_gregorian.1 (-1) eve,
    gmtime_is_gregorian.2.1 (-1) 0 eve epoch (by decide),
    gmtime_is_gregorian.2.2.1 ⟨2000, 2, 29⟩ (by unfold Date.Fits Date.Valid; decide),
    (gmtime_is_gregorian.2.2.2 (-784351576777) (by unfold Since; decide)).2⟩

/-- `y - 399` leaves the range of `int` on the day before, and on every earlier day. -/
theorem days_from_civil_wraps : Date.Valid ⟨-2 ^ 31 + 399, 2, 28⟩ ∧
    civilFromDays (daysFromCivil ⟨-2 ^ 31 + 399, 2, 28⟩) ≠ ⟨-2 ^ 31 + 399, 2, 28⟩ :=
  ⟨by unfold Date.Valid; decide, by decide⟩

end Style9.User
