import Mathlib

/-!
# The proleptic Gregorian calendar

Years are integers, and the year before year `1` is year `0`.  A moment is a day and a time of
the day; the microseconds from the beginning of 1970 to a moment are `instant`.  Different
moments have different instants (`Civil.eq_of_instant`).
-/

namespace Lush.Gregorian

/-! ## Years and months -/

/-- A leap year. -/
def LeapYear (y : ℤ) : Prop := 4 ∣ y ∧ (¬ 100 ∣ y ∨ 400 ∣ y)

instance (y : ℤ) : Decidable (LeapYear y) := inferInstanceAs (Decidable (_ ∧ _))

/-- The number of days of a month. -/
def daysInMonth (y m : ℤ) : ℤ :=
  if m = 2 then if LeapYear y then 29 else 28
  else if m = 4 ∨ m = 6 ∨ m = 9 ∨ m = 11 then 30
  else 31

/-- The number of days of a year. -/
def yearLength (y : ℤ) : ℤ := if LeapYear y then 366 else 365

/-- The days from the beginning of year `0` to that of a year. -/
def yearStart (y : ℤ) : ℤ := 365 * y + (y + 3) / 4 - (y + 99) / 100 + (y + 399) / 400

/-- The days of a year before a month. -/
def monthStart (y m : ℤ) : ℤ := ∑ i ∈ Finset.range (m - 1).toNat, daysInMonth y (i + 1)

variable {y y' m m' : ℤ}

theorem yearStart_zero : yearStart 0 = 0 := by decide

theorem yearStart_succ (y : ℤ) : yearStart (y + 1) = yearStart y + yearLength y := by
  unfold yearStart yearLength LeapYear
  split_ifs <;> omega

theorem yearLength_pos (y : ℤ) : 0 < yearLength y := by
  unfold yearLength
  split_ifs <;> decide

theorem daysInMonth_pos (y m : ℤ) : 0 < daysInMonth y m := by
  unfold daysInMonth
  split_ifs <;> decide

theorem yearStart_mono : Monotone yearStart := by
  apply monotone_int_of_le_succ
  intro y
  rw [yearStart_succ]
  exact le_add_of_nonneg_right (yearLength_pos y).le

theorem monthStart_one (y : ℤ) : monthStart y 1 = 0 := rfl

theorem monthStart_succ (hm : 1 ≤ m) (y : ℤ) :
    monthStart y (m + 1) = monthStart y m + daysInMonth y m := by
  have hnat : (m + 1 - 1).toNat = (m - 1).toNat + 1 := by omega
  have hcast : ((m - 1).toNat : ℤ) + 1 = m := by omega
  rw [monthStart, hnat, Finset.sum_range_succ, hcast, monthStart]

theorem monthStart_mono (y : ℤ) : Monotone (monthStart y) := by
  intro a b hab
  apply Finset.sum_le_sum_of_subset_of_nonneg
  · exact Finset.range_subset_range.mpr (by omega)
  · exact fun i _ _ => (daysInMonth_pos y _).le

/-- A leap day, or none. -/
def leapDays (y : ℤ) : ℤ := if LeapYear y then 1 else 0

/-- The months after February have 153 days in five. -/
theorem monthStart_eq (y : ℤ) (h1 : 1 ≤ m) (h12 : m ≤ 13) :
    monthStart y m =
      if m ≤ 2 then 31 * (m - 1) else 59 + leapDays y + (153 * (m - 3) + 2) / 5 := by
  induction m, h1 using Int.leInduction with
  | base => rfl
  | succ m hm ih =>
      rw [monthStart_succ hm, ih (by omega), daysInMonth, leapDays]
      have hcases : m = 1 ∨ m = 2 ∨ m = 3 ∨ m = 4 ∨ m = 5 ∨ m = 6 ∨ m = 7 ∨ m = 8 ∨ m = 9 ∨
          m = 10 ∨ m = 11 ∨ m = 12 := by
        omega
      rcases hcases with rfl | rfl | rfl | rfl | rfl | rfl | rfl | rfl | rfl | rfl | rfl | rfl <;>
        split_ifs <;> omega

/-- The months make up the year. -/
theorem monthStart_year (y : ℤ) : monthStart y 13 = yearLength y := by
  rw [monthStart_eq y (by decide) le_rfl, if_neg (by decide), leapDays, yearLength]
  split_ifs <;> decide

/-- A year that begins in March ends with its leap day. -/
theorem yearStart_march (y : ℤ) :
    yearStart y + leapDays y = 365 * y + y / 4 - y / 100 + y / 400 + 1 := by
  unfold yearStart leapDays LeapYear
  split_ifs <;> omega

/-! ## Moments -/

/-- A day, and a time of the day. -/
@[ext] structure Moment where
  year : ℤ
  month : ℤ
  day : ℤ
  hour : ℤ
  minute : ℤ
  second : ℤ
  micro : ℤ
deriving DecidableEq, Repr

/-- The day and the time exist. -/
structure Civil (t : Moment) : Prop where
  month_pos : 1 ≤ t.month
  month_le : t.month ≤ 12
  day_pos : 1 ≤ t.day
  day_le : t.day ≤ daysInMonth t.year t.month
  hour_nonneg : 0 ≤ t.hour
  hour_le : t.hour ≤ 23
  minute_nonneg : 0 ≤ t.minute
  minute_le : t.minute ≤ 59
  second_nonneg : 0 ≤ t.second
  second_le : t.second ≤ 59
  micro_nonneg : 0 ≤ t.micro
  micro_le : t.micro ≤ 999999

/-- The days from the first of January 1970 to a day. -/
def dayNumber (y m d : ℤ) : ℤ := yearStart y - yearStart 1970 + monthStart y m + (d - 1)

/-- The microseconds from the beginning of 1970 to a moment. -/
def instant (t : Moment) : ℤ :=
  1000000 * (60 * (60 * (24 * dayNumber t.year t.month t.day + t.hour) + t.minute) + t.second) +
    t.micro

theorem yearStart_1970 : yearStart 1970 = 719528 := by decide

/-- **The number of a day**, from the year that begins in March. -/
theorem dayNumber_march {d : ℤ} (hm : 0 ≤ m) (hm11 : m ≤ 11) :
    dayNumber (if m < 10 then y else y + 1) (if m < 10 then m + 3 else m - 9) d =
      365 * y + y / 4 - y / 100 + y / 400 + (153 * m + 2) / 5 + (d - 1) - 719468 := by
  unfold dayNumber
  rw [yearStart_1970]
  by_cases h10 : m < 10
  · have hyear := yearStart_march y
    rw [if_pos h10, if_pos h10, monthStart_eq y (by omega) (by omega), if_neg (by omega),
      add_sub_cancel_right]
    omega
  · have hyear := yearStart_march y
    have hsucc := yearStart_succ y
    have hlength : yearLength y = 365 + leapDays y := by
      unfold yearLength leapDays
      split_ifs <;> rfl
    rw [if_neg h10, if_neg h10, monthStart_eq (y + 1) (by omega) (by omega), if_pos (by omega)]
    omega

/-! ## A moment is determined by its instant -/

/-- A number is in one of the intervals that begin at the values of a monotone function. -/
theorem eq_of_interval {f : ℤ → ℤ} (hf : Monotone f) {a b n : ℤ} (ha : f a ≤ n)
    (ha' : n < f (a + 1)) (hb : f b ≤ n) (hb' : n < f (b + 1)) : a = b := by
  apply le_antisymm
  · by_contra hlt
    exact (hb'.trans_le ((hf (not_le.mp hlt)).trans ha)).false
  · by_contra hlt
    exact (ha'.trans_le ((hf (not_le.mp hlt)).trans hb)).false

variable {t t' : Moment}

theorem Civil.monthStart_lt (h : Civil t) :
    monthStart t.year t.month + (t.day - 1) < monthStart t.year (t.month + 1) := by
  have hday := h.day_le
  rw [monthStart_succ h.month_pos]
  omega

/-- A day is in its year. -/
theorem Civil.monthStart_lt_year (h : Civil t) :
    0 ≤ monthStart t.year t.month + (t.day - 1) ∧
      monthStart t.year t.month + (t.day - 1) < yearLength t.year := by
  constructor
  · have hmonth : monthStart t.year 1 ≤ monthStart t.year t.month :=
      monthStart_mono t.year h.month_pos
    have hday := h.day_pos
    rw [monthStart_one] at hmonth
    omega
  · rw [← monthStart_year]
    have hmonth : t.month + 1 ≤ 13 := by
      have hle := h.month_le
      omega
    exact h.monthStart_lt.trans_le (monthStart_mono t.year hmonth)

/-- A day is determined by its number. -/
theorem Civil.eq_of_dayNumber (h : Civil t) (h' : Civil t')
    (heq : dayNumber t.year t.month t.day = dayNumber t'.year t'.month t'.day) :
    t.year = t'.year ∧ t.month = t'.month ∧ t.day = t'.day := by
  obtain ⟨hlo, hhi⟩ := h.monthStart_lt_year
  obtain ⟨hlo', hhi'⟩ := h'.monthStart_lt_year
  have hstart := yearStart_succ t.year
  have hstart' := yearStart_succ t'.year
  unfold dayNumber at heq
  have hyear : t.year = t'.year := by
    apply eq_of_interval yearStart_mono
      (n := yearStart t.year + (monthStart t.year t.month + (t.day - 1))) <;> omega
  rw [← hyear] at heq
  have hmonth : t.month = t'.month := by
    have hlt := h.monthStart_lt
    have hlt' := h'.monthStart_lt
    rw [← hyear] at hlt'
    have hday := h.day_pos
    have hday' := h'.day_pos
    apply eq_of_interval (monthStart_mono t.year)
      (n := monthStart t.year t.month + (t.day - 1)) <;> omega
  rw [← hmonth] at heq
  refine ⟨hyear, hmonth, ?_⟩
  omega

/-- **A moment is determined by its instant.** -/
theorem Civil.eq_of_instant (h : Civil t) (h' : Civil t') (heq : instant t = instant t') :
    t = t' := by
  have hhour := h.hour_nonneg
  have hhour' := h'.hour_nonneg
  have hhour_le := h.hour_le
  have hhour_le' := h'.hour_le
  have hminute := h.minute_nonneg
  have hminute' := h'.minute_nonneg
  have hminute_le := h.minute_le
  have hminute_le' := h'.minute_le
  have hsecond := h.second_nonneg
  have hsecond' := h'.second_nonneg
  have hsecond_le := h.second_le
  have hsecond_le' := h'.second_le
  have hmicro := h.micro_nonneg
  have hmicro' := h'.micro_nonneg
  have hmicro_le := h.micro_le
  have hmicro_le' := h'.micro_le
  unfold instant at heq
  have hday : dayNumber t.year t.month t.day = dayNumber t'.year t'.month t'.day := by omega
  obtain ⟨hyear, hmonth, hday'⟩ := h.eq_of_dayNumber h' hday
  apply Moment.ext hyear hmonth hday' <;> omega

end Lush.Gregorian
