import Mathlib.Algebra.Group.Nat.Defs
import Mathlib.Tactic.Ring
import Mathlib.Tactic.SplitIfs
/-!
# Time — calendar time in UTC

`gmtime_r` and `mktime` of `src/userspace/libc/src/time.c`, over the integers: where the year and `tm_year`, which is 1900
less, fit in an `int`, so does all that is computed.
-/
namespace EterOS.Time

def isLeap (year : Int) : Bool := year.tmod 4 = 0 ∧ (year.tmod 100 ≠ 0 ∨ year.tmod 400 = 0)

def mdays : List Int := [0, 31, 28, 31, 30, 31, 30, 31, 31, 30, 31, 30, 31]

/-- `is_leap(y) ? 366 : 365`. -/
def yearDays (y : Int) : Int := if isLeap y then 366 else 365

/-- `mdays[m]`, with the day that a leap year adds. -/
def monthDays (leap : Bool) (m : Nat) : Int := if m = 2 ∧ leap then mdays.getD m 0 + 1 else mdays.getD m 0

structure Tm where
  sec : Int
  min : Int
  hour : Int
  mday : Int
  mon : Int
  year : Int
  wday : Int
  yday : Int

theorem yearDays_cases (y : Int) : yearDays y = 365 ∨ yearDays y = 366 := by
  unfold yearDays
  split_ifs <;> simp

/-- The `while` loop of `gmtime_r`: `y` and `days`. -/
def yearLoop (y days : Int) : Int × Int :=
  if yearDays y ≤ days then yearLoop (y + 1) (days - yearDays y)
  else if days < 0 then yearLoop (y - 1) (days + yearDays (y - 1))
  else (y, days)
termination_by if days < 0 then (-days).toNat + 366 else days.toNat
decreasing_by
  · have := yearDays_cases y
    split_ifs <;> omega
  · have := yearDays_cases (y - 1)
    split_ifs <;> omega

/-- The loop over the months: `tm_mon` and `tm_mday`, which it leaves as they are if no month comes. -/
def monthLoop (leap : Bool) (m : Nat) (days : Int) (old : Int × Int) : Int × Int :=
  if m < 12 then
    if days < monthDays leap m then (m - 1, days + 1)
    else
      let days := days - monthDays leap m
      monthLoop leap (m + 1) days (if m = 11 then (11, days + 1) else old)
  else old
termination_by 12 - m

def gmtimeR (old : Tm) (t : Int) : Tm :=
  let rem := t.tmod 86400
  let days := if rem < 0 then t.tdiv 86400 - 1 else t.tdiv 86400
  let rem := if rem < 0 then rem + 86400 else rem
  let wday := (days + 4).tmod 7
  let y := yearLoop 1970 days
  let m := monthLoop (isLeap y.1) 1 y.2 (old.mon, old.mday)
  { hour := rem.tdiv 3600, min := (rem.tmod 3600).tdiv 60, sec := (rem.tmod 3600).tmod 60
    wday := if wday < 0 then wday + 7 else wday, year := y.1 - 1900, yday := y.2, mon := m.1, mday := m.2 }

/-- `while (mon < 0)`. -/
def monthsDown (year mon : Int) : Int × Int := if mon < 0 then monthsDown (year - 1) (mon + 12) else (year, mon)
termination_by (-mon).toNat
decreasing_by omega

/-- `while (mon > 11)`. -/
def monthsUp (year mon : Int) : Int × Int := if 11 < mon then monthsUp (year + 1) (mon - 12) else (year, mon)
termination_by mon.toNat
decreasing_by omega

def addYears (y year t : Int) : Int := if y < year then addYears (y + 1) year (t + yearDays y) else t
termination_by (year - y).toNat
decreasing_by omega

def addMonths (leap : Bool) : Nat → Int → Int
  | 0, t => t
  | m + 1, t => addMonths leap m t + monthDays leap (m + 1)

def mktime (tm : Tm) : Int :=
  let y := monthsDown (tm.year + 1900) tm.mon
  let y := monthsUp y.1 y.2
  let t := addMonths (isLeap y.1) y.2.toNat (addYears 1970 y.1 0)
  (((t + (tm.mday - 1)) * 24 + tm.hour) * 60 + tm.min) * 60 + tm.sec

/-! ## The calendar -/

def Leap (y : Int) : Prop := 4 ∣ y ∧ (¬ 100 ∣ y ∨ 400 ∣ y)

instance (y : Int) : Decidable (Leap y) := inferInstanceAs (Decidable (_ ∧ _))

/-- The leap years from year 1 up to `y`; before it, those left out are negative. -/
def leaps (y : Int) : Int := y / 4 - y / 100 + y / 400

/-- The days from 1970 to the start of a year. -/
def yearStart (y : Int) : Int := 365 * (y - 1970) + leaps (y - 1) - leaps 1969

/-- The days of month `m`, counted from 0. -/
def daysIn (y : Int) (m : Nat) : Int :=
  if m = 1 then if Leap y then 29 else 28
  else if m = 3 ∨ m = 5 ∨ m = 8 ∨ m = 10 then 30
  else 31

def monthStart (y : Int) (m : Nat) : Int := ((List.range m).map (daysIn y)).sum

/-- The date and time of `t` in UTC, by the Gregorian calendar. -/
structure IsUtc (t : Int) (tm : Tm) : Prop where
  sec : 0 ≤ tm.sec ∧ tm.sec < 60
  min : 0 ≤ tm.min ∧ tm.min < 60
  hour : 0 ≤ tm.hour ∧ tm.hour < 24
  mon : 0 ≤ tm.mon ∧ tm.mon < 12
  mday : 1 ≤ tm.mday ∧ tm.mday ≤ daysIn (tm.year + 1900) tm.mon.toNat
  yday : tm.yday = monthStart (tm.year + 1900) tm.mon.toNat + (tm.mday - 1)
  instant : t = (yearStart (tm.year + 1900) + tm.yday) * 86400 + tm.hour * 3600 + tm.min * 60 + tm.sec
  wday : tm.wday = (yearStart (tm.year + 1900) + tm.yday + 4) % 7

theorem isLeap_iff (y : Int) : isLeap y = true ↔ Leap y := by
  unfold isLeap Leap
  rw [decide_eq_true_iff]
  simp [Ne, ← Int.dvd_iff_tmod_eq_zero]

theorem leaps_pred (y : Int) : leaps y = leaps (y - 1) + if Leap y then 1 else 0 := by
  have h4 : y / 4 = (y - 1) / 4 + if 4 ∣ y then 1 else 0 := by split <;> omega
  have h100 : y / 100 = (y - 1) / 100 + if 100 ∣ y then 1 else 0 := by split <;> omega
  have h400 : y / 400 = (y - 1) / 400 + if 400 ∣ y then 1 else 0 := by split <;> omega
  have hhundred : 400 ∣ y → 100 ∣ y := Int.dvd_trans ⟨4, rfl⟩
  have hfour : 100 ∣ y → 4 ∣ y := Int.dvd_trans ⟨25, rfl⟩
  unfold leaps
  rw [h4, h100, h400]
  by_cases d400 : 400 ∣ y
  · rw [if_pos (hfour (hhundred d400)), if_pos (hhundred d400), if_pos d400,
      if_pos (show Leap y from ⟨hfour (hhundred d400), Or.inr d400⟩)]
    ring
  · by_cases d100 : 100 ∣ y
    · rw [if_pos (hfour d100), if_pos d100, if_neg d400, if_neg fun h : Leap y => h.2.elim (· d100) d400]
      ring
    · by_cases d4 : 4 ∣ y
      · rw [if_pos d4, if_neg d100, if_neg d400, if_pos (show Leap y from ⟨d4, Or.inl d100⟩)]
        ring
      · rw [if_neg d4, if_neg d100, if_neg d400, if_neg fun h : Leap y => d4 h.1]
        ring

theorem yearStart_succ (y : Int) : yearStart (y + 1) = yearStart y + yearDays y := by
  unfold yearDays yearStart
  rw [Int.add_sub_cancel, leaps_pred y]
  simp only [isLeap_iff]
  split <;> ring

theorem monthDays_eq (y : Int) {m : Nat} (h : m < 12) : monthDays (isLeap y) (m + 1) = daysIn y m := by
  unfold monthDays daysIn
  simp only [isLeap_iff]
  by_cases hy : Leap y <;> simp only [hy] <;> revert m <;> decide

theorem monthStart_succ (y : Int) (m : Nat) : monthStart y (m + 1) = monthStart y m + daysIn y m := by
  simp [monthStart, List.range_succ]

theorem daysIn_pos (y : Int) (m : Nat) : 28 ≤ daysIn y m := by
  unfold daysIn
  split_ifs <;> simp

theorem monthStart_le (y : Int) {m n : Nat} (h : m ≤ n) : monthStart y m ≤ monthStart y n := by
  induction h with
  | refl => exact Int.le_refl _
  | @step k _ ih =>
    have hpos := daysIn_pos y k
    rw [monthStart_succ]
    omega

theorem monthStart_year (y : Int) : monthStart y 12 = yearDays y := by
  unfold yearDays
  simp only [isLeap_iff]
  by_cases hy : Leap y <;> simp [monthStart, List.range_succ, daysIn, hy]

/-! ## The loops -/

theorem yearLoop_spec (y days : Int) : 0 ≤ (yearLoop y days).2 ∧ (yearLoop y days).2 < yearDays (yearLoop y days).1 ∧
      yearStart (yearLoop y days).1 + (yearLoop y days).2 = yearStart y + days := by
  fun_induction yearLoop y days with
  | case1 y days hle ih =>
    rw [yearStart_succ] at ih
    omega
  | case2 y days hle hneg ih =>
    have hprev := yearStart_succ (y - 1)
    rw [Int.sub_add_cancel] at hprev
    omega
  | case3 y days hle hneg => exact ⟨Int.not_lt.1 hneg, Int.not_le.1 hle, rfl⟩

theorem monthLoop_spec (y : Int) {m : Nat} {days : Int} (hm : m < 11) (h0 : 0 ≤ days)
    (hlt : monthStart y m + days < yearDays y)
    (old : Int × Int) :
    ∃ k : Nat, k < 12 ∧ ∃ mday, monthLoop (isLeap y) (m + 1) days old = ((k : Int), mday) ∧ 1 ≤ mday ∧ mday ≤ daysIn y k ∧
      monthStart y m + days = monthStart y k + (mday - 1) := by
  induction hn : 10 - m generalizing m days old with
  | zero =>
    obtain rfl : m = 10 := by omega
    have h12 := monthStart_year y
    have h11 : monthStart y 11 = monthStart y 10 + daysIn y 10 := monthStart_succ y 10
    rw [monthStart_succ] at h12
    rw [monthLoop, if_pos (by decide), monthDays_eq y (by decide)]
    by_cases hday : days < daysIn y 10
    · exact ⟨10, by decide, days + 1, by rw [if_pos hday]; rfl, by omega, by omega, by omega⟩
    · refine ⟨11, by decide, days - daysIn y 10 + 1, ?_, by omega, by omega, by omega⟩
      rw [if_neg hday, monthLoop]
      rfl
  | succ n ih =>
    rw [monthLoop, if_pos (by omega), monthDays_eq y (by omega)]
    by_cases hday : days < daysIn y m
    · exact ⟨m, by omega, days + 1, by rw [if_pos hday]; simp, by omega, by omega, by omega⟩
    · rw [if_neg hday]
      obtain ⟨k, hk, mday, hloop, h1, hle, hsum⟩ := ih (m := m + 1) (by omega) (show 0 ≤ days - daysIn y m by omega)
        (by rw [monthStart_succ]; omega) (if m + 1 = 11 then (11, days - daysIn y m + 1) else old) (by omega)
      rw [monthStart_succ] at hsum
      exact ⟨k, hk, mday, hloop, h1, hle, by omega⟩

theorem addYears_eq {y year : Int} (h : y ≤ year) (t : Int) : addYears y year t = t + yearStart year - yearStart y := by
  fun_induction addYears y year t with
  | case1 y t hlt ih =>
    rw [ih (by omega), yearStart_succ]
    omega
  | case2 y t hlt =>
    obtain rfl : y = year := by omega
    omega

theorem addMonths_eq (y : Int) : ∀ {m : Nat}, m ≤ 12 → ∀ t, addMonths (isLeap y) m t = t + monthStart y m
  | 0, _, t => by simp [addMonths, monthStart]
  | m + 1, h, t => by
    rw [addMonths, addMonths_eq y (by omega), monthDays_eq y (by omega), monthStart_succ]
    omega

/-- The correction of a remainder that is negative. -/
theorem floor_eq (t : Int) {b : Int} (hb : 0 < b) :
    (if t.tmod b < 0 then t.tmod b + b else t.tmod b) = t % b ∧
    (if t.tmod b < 0 then t.tdiv b - 1 else t.tdiv b) = t / b := by
  have h0 := Int.emod_nonneg t (Int.ne_of_gt hb)
  have hlt := Int.emod_lt_of_pos t hb
  rw [Int.tmod_eq_emod, Int.tdiv_eq_ediv, Int.sign_eq_one_of_pos hb]
  by_cases h : 0 ≤ t ∨ b ∣ t
  · simp only [if_pos h]
    split_ifs <;> omega
  · simp only [if_neg h]
    split_ifs <;> omega

theorem yearStart_nonneg {y : Int} (h : 1970 ≤ y) : 0 ≤ yearStart y := by
  unfold yearStart leaps
  omega

theorem yearStart_nonpos {y : Int} (h : y ≤ 1970) : yearStart y ≤ 0 := by
  unfold yearStart leaps
  omega

theorem monthsDown_eq (year : Int) {mon : Int} (h : 0 ≤ mon) : monthsDown year mon = (year, mon) := by
  rw [monthsDown, if_neg (Int.not_lt.2 h)]

theorem monthsUp_eq (year : Int) {mon : Int} (h : mon < 12) : monthsUp year mon = (year, mon) := by
  rw [monthsUp, if_neg (by omega)]

theorem gmtimeR_isUtc (old : Tm) (t : Int) : IsUtc t (gmtimeR old t) := by
  obtain ⟨hyear0, hyear1, hstart⟩ := yearLoop_spec 1970 (t / 86400)
  obtain ⟨k, hk, mday, hmonth, h1, hle, hday⟩ :=
    monthLoop_spec (m := 0) _ (by decide) hyear0 (by rw [monthStart, List.range_zero]; simpa using hyear1)
      (old.mon, old.mday)
  have hrem0 := Int.emod_nonneg t (show (86400 : Int) ≠ 0 by decide)
  have hrem1 := Int.emod_lt_of_pos t (show (0 : Int) < 86400 by decide)
  have h1970 : yearStart 1970 = 0 := by decide
  have hzero : monthStart (yearLoop 1970 (t / 86400)).1 0 = 0 := rfl
  unfold gmtimeR
  simp only [(floor_eq _ (show (0 : Int) < 86400 by decide)).1, (floor_eq _ (show (0 : Int) < 86400 by decide)).2,
    (floor_eq _ (show (0 : Int) < 7 by decide)).1]
  rw [Int.tdiv_eq_ediv_of_nonneg hrem0, Int.tmod_eq_emod_of_nonneg hrem0, Int.tdiv_eq_ediv_of_nonneg (by omega),
    Int.tmod_eq_emod_of_nonneg (by omega), hmonth]
  constructor <;> simp only [Int.sub_add_cancel, Int.toNat_natCast] <;> omega

/-- `mktime` counts the years from 1970 upwards only. -/
theorem mktime_eq {t : Int} {tm : Tm} (h : IsUtc t tm) : mktime tm = t ↔ 0 ≤ t := by
  have hmon := h.mon
  have hsec := h.sec
  have hmin := h.min
  have hhour := h.hour
  have hmday := h.mday
  have hyday := h.yday
  have ht := h.instant
  have hend := monthStart_le (tm.year + 1900) (show tm.mon.toNat + 1 ≤ 12 by omega)
  have hstart := monthStart_le (tm.year + 1900) (Nat.zero_le tm.mon.toNat)
  have hzero : monthStart (tm.year + 1900) 0 = 0 := rfl
  rw [monthStart_succ, monthStart_year] at hend
  unfold mktime
  simp only [monthsDown_eq _ hmon.1, monthsUp_eq _ hmon.2, addMonths_eq _ (show tm.mon.toNat ≤ 12 by omega)]
  by_cases hy : 1970 ≤ tm.year + 1900
  · have h1970 : yearStart 1970 = 0 := by decide
    have hnonneg := yearStart_nonneg hy
    rw [addYears_eq hy]
    omega
  · have hnext := yearStart_nonpos (show tm.year + 1900 + 1 ≤ 1970 by omega)
    rw [yearStart_succ] at hnext
    rw [addYears, if_neg (by omega)]
    omega

/-- **A time is given back by its date** if it is not before 1970; its date is right in any case. -/
theorem calendar_round_trip (old : Tm) (t : Int) :
    IsUtc t (gmtimeR old t) ∧ (mktime (gmtimeR old t) = t ↔ 0 ≤ t) ∧ ∀ old' t', gmtimeR old t = gmtimeR old' t' →
    t = t' := by
  refine ⟨gmtimeR_isUtc old t, mktime_eq (gmtimeR_isUtc old t), fun old' t' h => ?_⟩
  rw [(gmtimeR_isUtc old t).instant, h, ← (gmtimeR_isUtc old' t').instant]

theorem mktime_before_epoch : mktime (gmtimeR ⟨0, 0, 0, 0, 0, 0, 0, 0⟩ (-1)) ≠ -1 := by
  rw [Ne, mktime_eq (gmtimeR_isUtc _ _)]
  decide

end EterOS.Time
