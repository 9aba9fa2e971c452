import Lush.Dates.Date
import Mathlib.Algebra.BigOperators.Intervals
import Mathlib.Algebra.Order.BigOperators.Group.Finset

/-!
# The calendar

The days are numbered from the first of January 1900.  The number of a day is that of the
days in the years before, in the months before and in the month before it.
-/

namespace Lush.Dates

open Finset

/-- The number of days of a year. -/
def yearLength (year : ℕ) : ℕ := if LeapYear year then 366 else 365

/-- The number of the first day of the year `1900 + y`. -/
def yearStart (y : ℕ) : ℕ := ∑ i ∈ range y, yearLength (1900 + i)

/-- The number of days of a year that are before a month. -/
def monthStart (year month : ℕ) : ℕ := ∑ m ∈ Ico 1 month, daysInMonth year m

/-- The number of a day. -/
def dayNumber (x : ℕ → ℕ) : ℕ :=
  yearStart (x dateYear) + monthStart (1900 + x dateYear) (x dateMonth) + (x dateDay - 1)

/-- The number of a second in its day. -/
def secondNumber (x : ℕ → ℕ) : ℕ := 3600 * x dateHour + 60 * x dateMinute + x dateSecond

/-- The number of a second. -/
def instant (x : ℕ → ℕ) : ℕ := 86400 * dayNumber x + secondNumber x

/-- The fields are those of a date. -/
structure Civil (x : ℕ → ℕ) : Prop where
  month_pos : 1 ≤ x dateMonth
  month_le : x dateMonth ≤ 12
  day_pos : 1 ≤ x dateDay
  day_le : x dateDay ≤ daysInMonth (1900 + x dateYear) (x dateMonth)
  hour_le : x dateHour ≤ 23
  minute_le : x dateMinute ≤ 59
  second_le : x dateSecond ≤ 59

/-! ## Years and months -/

theorem yearStart_succ (y : ℕ) : yearStart (y + 1) = yearStart y + yearLength (1900 + y) :=
  sum_range_succ _ y

theorem yearLength_bounds (year : ℕ) : 365 ≤ yearLength year ∧ yearLength year ≤ 366 := by
  unfold yearLength
  split_ifs <;> omega

theorem yearStart_mono : Monotone yearStart := by
  apply monotone_nat_of_le_succ
  intro y
  rw [yearStart_succ]
  exact Nat.le_add_right _ _

/-- Leap years are counted with three quotients. -/
theorem yearStart_eq (y : ℕ) :
    (yearStart y : ℤ) = 365 * y + (y + 3) / 4 - (y + 99) / 100 + (y + 299) / 400 := by
  induction y with
  | zero => rfl
  | succ y ih =>
      rw [yearStart_succ, yearLength]
      have hleap := leap_iff y
      unfold Leap at hleap
      split_ifs with hyear
      · have hy := hleap.mpr hyear
        push_cast
        omega
      · have hy := mt hleap.mp hyear
        push_cast
        omega

theorem yearStart_le (y : ℕ) : yearStart y ≤ 366 * y := by
  have heq := yearStart_eq y
  omega

theorem le_yearStart (y : ℕ) : 365 * y ≤ yearStart y := by
  have heq := yearStart_eq y
  omega

theorem monthStart_succ {m : ℕ} (hm : 1 ≤ m) (year : ℕ) :
    monthStart year (m + 1) = monthStart year m + daysInMonth year m :=
  sum_Ico_succ_top hm _

theorem monthStart_one (year : ℕ) : monthStart year 1 = 0 := rfl

theorem monthStart_mono (year : ℕ) : Monotone (monthStart year) := by
  intro a b hab
  exact sum_le_sum_of_subset (Ico_subset_Ico_right hab)

theorem daysInMonth_congr {year year' : ℕ} (h : LeapYear year ↔ LeapYear year') (m : ℕ) :
    daysInMonth year m = daysInMonth year' m := by
  unfold daysInMonth
  simp only [h]

theorem monthStart_congr {year year' : ℕ} (h : LeapYear year ↔ LeapYear year') (m : ℕ) :
    monthStart year m = monthStart year' m :=
  sum_congr rfl fun m _ => daysInMonth_congr h m

/-- The months make up the year. -/
theorem monthStart_year (year : ℕ) : monthStart year 13 = yearLength year := by
  unfold yearLength
  split_ifs with hyear
  · rw [monthStart_congr (iff_of_true hyear (by decide : LeapYear 2000))]
    rfl
  · rw [monthStart_congr (iff_of_false hyear (by decide : ¬ LeapYear 1900))]
    rfl

/-! ## A date is determined by its number -/

/-- A number is in one of the intervals that begin at the values of a monotone function. -/
theorem eq_of_interval {f : ℕ → ℕ} (hf : Monotone f) {a b n : ℕ} (ha : f a ≤ n)
    (ha' : n < f (a + 1)) (hb : f b ≤ n) (hb' : n < f (b + 1)) : a = b := by
  apply le_antisymm
  · by_contra hlt
    exact (hb'.trans_le ((hf (not_le.mp hlt)).trans ha)).false
  · by_contra hlt
    exact (ha'.trans_le ((hf (not_le.mp hlt)).trans hb)).false

variable {x x' : ℕ → ℕ}

theorem Civil.monthStart_lt (h : Civil x) :
    monthStart (1900 + x dateYear) (x dateMonth) + (x dateDay - 1) <
      monthStart (1900 + x dateYear) (x dateMonth + 1) := by
  have hpos := h.day_pos
  have hle := h.day_le
  rw [monthStart_succ h.month_pos]
  omega

theorem Civil.dayNumber_lt (h : Civil x) : dayNumber x < yearStart (x dateYear + 1) := by
  have hmonth := h.monthStart_lt
  have hyear : monthStart (1900 + x dateYear) (x dateMonth + 1) ≤
      monthStart (1900 + x dateYear) 13 :=
    monthStart_mono (1900 + x dateYear) (Nat.succ_le_succ h.month_le)
  rw [monthStart_year] at hyear
  rw [yearStart_succ]
  unfold dayNumber
  omega

theorem Civil.secondNumber_lt (h : Civil x) : secondNumber x < 86400 := by
  have hhour := h.hour_le
  have hminute := h.minute_le
  have hsecond := h.second_le
  unfold secondNumber
  omega

/-- Two dates with one number are the same. -/
theorem Civil.eq_of_instant (h : Civil x) (h' : Civil x') (heq : instant x = instant x') :
    ∀ i ≤ dateSecond, x i = x' i := by
  have hlt := h.secondNumber_lt
  have hlt' := h'.secondNumber_lt
  unfold instant at heq
  have hday : dayNumber x = dayNumber x' := by omega
  have hsecond : secondNumber x = secondNumber x' := by omega
  have hyear : x dateYear = x' dateYear := by
    refine eq_of_interval (n := dayNumber x) yearStart_mono ?_ h.dayNumber_lt ?_ ?_
    · unfold dayNumber
      omega
    · rw [hday]
      unfold dayNumber
      omega
    · rw [hday]
      exact h'.dayNumber_lt
  have hinyear : monthStart (1900 + x dateYear) (x dateMonth) + (x dateDay - 1) =
      monthStart (1900 + x dateYear) (x' dateMonth) + (x' dateDay - 1) := by
    unfold dayNumber at hday
    rw [← hyear] at hday
    omega
  have hmonth : x dateMonth = x' dateMonth := by
    have hm' := h'.monthStart_lt
    rw [← hyear] at hm'
    refine eq_of_interval (monthStart_mono (1900 + x dateYear)) (Nat.le_add_right _ _)
      h.monthStart_lt ?_ ?_
    · rw [hinyear]
      exact Nat.le_add_right _ _
    · rwa [hinyear]
  have hdom : x dateDay = x' dateDay := by
    have hpos := h.day_pos
    have hpos' := h'.day_pos
    rw [hmonth] at hinyear
    omega
  have hhour := h.hour_le
  have hhour' := h'.hour_le
  have hminute := h.minute_le
  have hminute' := h'.minute_le
  have hsec := h.second_le
  have hsec' := h'.second_le
  unfold secondNumber at hsecond
  intro i hi
  match i, hi with
  | dateYear, _ => exact hyear
  | dateMonth, _ => exact hmonth
  | dateDay, _ => exact hdom
  | dateHour, _ => omega
  | dateMinute, _ => omega
  | dateSecond, _ => omega

end Lush.Dates
