import Lush.Dates.Calendar
import Lush.Dates.Parsing

/-!
# Adding to dates

A date is taken to a number of days and a number of seconds, and what is added goes to one
of the two.  The division that takes the days out of the seconds rounds towards zero, so
that a negative number of seconds may be left (`secondsLeft`).
-/

namespace Lush.Dates

/-! ## The functions -/

/-- `date_extend`: `now` has the fields of the present time, and `buf` those that the new
date had before. -/
def dateExtend (now buf : ℕ → ℕ) (d : Date) (nfrom nto : ℕ) : Date :=
  ⟨nfrom, nto, fun i =>
    if d.dto < dateDay ∧ i = dateDay then 1
    else if d.dto < dateMonth ∧ i = dateMonth then 1
    else if d.dfrom ≤ i then if i ≤ d.dto then d.x i else 0
    else if nfrom < d.dfrom then now i
    else buf i⟩

/-- The table `month` of `date_to_n`. -/
def month : List ℕ := [0, 31, 60, 91, 121, 152, 182, 213, 244, 274, 305, 335]

/-- `month[m-1]`. -/
def monthAt : ℕ → Except Fault ℕ
  | 0 => .error .undefined
  | k + 1 =>
      match month[k]? with
      | none => .error .undefined
      | some days => .ok days

/-- `date_to_n`: the number of days from 1970 and the number of seconds of the day. -/
def dateToN (now buf : ℕ → ℕ) (dt : Date) : Except Fault (ℤ × ℤ) := do
  let x := (dateExtend now buf dt dateYear dateSecond).x
  let y := x dateYear
  let m := x dateMonth
  let leap : ℤ := ((y + 3) / 4 : ℕ) - ((y + 99) / 100 : ℕ) + ((y + 299) / 400 : ℕ)
  let days ← monthAt m
  let nd := y * 365 + leap - 25567 + days + x dateDay - 1
  let nd := if 2 < m ∧ ¬ Leap y then nd - 1 else nd
  return (nd, x dateSecond + 60 * (x dateMinute + 60 * x dateHour))

/-- `date_to_wday`. -/
def dateToWday (now buf : ℕ → ℕ) (d : Date) : Except Fault ℤ := do
  let n ← dateToN now buf d
  return (n.1 + 4).tmod 7

/-- `ly`. -/
def yearDays (y : ℕ) : ℕ := if Leap y then 366 else 365

/-- The search for the year, in at most so many rounds. -/
def yearLoop : ℕ → ℕ → ℤ → Except Fault (ℕ × ℤ)
  | 0, _, _ => .error .depth
  | rounds + 1, y, nd =>
      if nd < yearDays y then .ok (y, nd) else yearLoop rounds (y + 1) (nd - yearDays y)

/-- The length of a month in a year with so many days. -/
def monthDays (ly m : ℕ) : ℕ :=
  if m ≠ 2 then mlen[m - 1]?.getD 0 else if ly = 366 then 29 else 28

/-- The search for the month, in so many rounds. -/
def monthLoop (ly : ℕ) : ℕ → ℕ → ℤ → ℕ × ℤ
  | 0, m, nd => (m, nd)
  | n + 1, m, nd =>
      if nd < monthDays ly m then (m, nd) else monthLoop ly n (m + 1) (nd - monthDays ly m)

/-- The six fields. -/
def fields (year month day hour minute second : ℕ) : ℕ → ℕ
  | dateYear => year
  | dateMonth => month
  | dateDay => day
  | dateHour => hour
  | dateMinute => minute
  | _ => second

/-- The second half of `n_to_date`: the day of the year `y` is found. -/
def dateIn (y : ℕ) (nd ns : ℤ) (dfrom dto : ℕ) : Except Fault Date :=
  if 255 < y then .error (.error "Day number falls after year 2155")
  else
    let day := monthLoop (yearDays y) 12 1 nd
    if ns < 0 ∨ 60 * 60 * 24 ≤ ns then .error (.error "Second number is illegal")
    else
      let h := ns / 3600
      let m := (ns - 3600 * h) / 60
      .ok ⟨dfrom, dto,
        fields y day.1 (1 + day.2).toNat h.toNat m.toNat (ns - 60 * (m + 60 * h)).toNat⟩

/-- `n_to_date`. -/
def nToDate (nd ns : ℤ) (dfrom dto : ℕ) : Except Fault Date := do
  let h := (ns.tdiv 3600).tdiv 24
  let nd ← intResult (nd + h)
  let ns ← intResult (ns - h * 3600 * 24)
  let nd ← intResult (nd + 25567)
  if nd < 0 then .error (.error "Day number falls before 1900")
  else
    let y := (nd / 366).toNat
    let nd := nd - (365 * y + ((y + 3) / 4 : ℕ) - ((y + 99) / 100 : ℕ) + ((y + 299) / 400 : ℕ))
    let found ← yearLoop (nd.toNat + 1) y nd
    dateIn found.1 found.2 ns dfrom dto

/-- `make_date`. -/
def makeDate (d : Date) : Except Fault Date := do
  let valid ← dateCheck d
  if valid then return d else .error (.error "Illegal date")

/-- The common part of the three functions that add to the seconds. -/
def dateAddSeconds (now buf : ℕ → ℕ) (unit : ℤ) (d : Date) (add : ℤ) : Except Fault Date := do
  let n ← dateToN now buf d
  let product ← intResult (unit * add)
  let ns ← intResult (n.2 + product)
  let d ← nToDate n.1 ns d.dfrom d.dto
  makeDate d

/-- `date-add-second`. -/
def dateAddSecond (now buf : ℕ → ℕ) : Date → ℤ → Except Fault Date := dateAddSeconds now buf 1

/-- `date-add-minute`. -/
def dateAddMinute (now buf : ℕ → ℕ) : Date → ℤ → Except Fault Date := dateAddSeconds now buf 60

/-- `date-add-hour`. -/
def dateAddHour (now buf : ℕ → ℕ) : Date → ℤ → Except Fault Date := dateAddSeconds now buf 3600

/-- `date-add-day`. -/
def dateAddDay (now buf : ℕ → ℕ) (d : Date) (add : ℤ) : Except Fault Date := do
  let n ← dateToN now buf d
  let nd ← intResult (n.1 + add)
  let d ← nToDate nd n.2 d.dfrom d.dto
  makeDate d

/-! ## From a date to numbers -/

/-- A date with all fields. -/
structure Full (d : Date) : Prop where
  dfrom : d.dfrom = dateYear
  dto : d.dto = dateSecond
  civil : Civil d.x
  year_le : d.x dateYear ≤ 255

variable {now buf : ℕ → ℕ} {d : Date} {x : ℕ → ℕ}

theorem dateExtend_full (h : Full d) {i : ℕ} (hi : i ≤ dateSecond) :
    (dateExtend now buf d dateYear dateSecond).x i = d.x i := by
  have hday : ¬ d.dto < dateDay := by
    rw [h.dto]
    decide
  have hmonth : ¬ d.dto < dateMonth := by
    rw [h.dto]
    decide
  unfold dateExtend
  simp only [hday, hmonth, false_and, if_false]
  rw [if_pos (by rw [h.dfrom]; exact Nat.zero_le i), if_pos (by rwa [h.dto])]

/-- The table of months and the test for a leap year give the days before a month. -/
theorem monthAt_eq {y m : ℕ} (h1 : 1 ≤ m) (h12 : m ≤ 12) :
    ∃ days, monthAt m = .ok days ∧
      (days : ℤ) = monthStart (1900 + y) m + if 2 < m ∧ ¬ Leap y then 1 else 0 := by
  have hleap : ∀ k < 12, monthAt (k + 1) = .ok (monthStart 2000 (k + 1)) := by decide
  have hother : ∀ k < 12, monthAt (k + 1) =
      .ok (monthStart 1900 (k + 1) + if 2 < k + 1 then 1 else 0) := by decide
  obtain ⟨k, rfl⟩ := Nat.exists_eq_add_of_le' h1
  by_cases hy : Leap y
  · have hyear := monthStart_congr (iff_of_true ((leap_iff y).mp hy) (by decide : LeapYear 2000))
    exact ⟨_, hleap k (by omega), by simp [hyear, hy]⟩
  · have hyear := monthStart_congr
      (iff_of_false (mt (leap_iff y).mpr hy) (by decide : ¬ LeapYear 1900))
    exact ⟨_, hother k (by omega), by simp [hyear, hy]⟩

/-- `date_to_n` gives the numbers of the day and of the second. -/
theorem dateToN_eq (h : Full d) :
    dateToN now buf d = .ok ((dayNumber d.x : ℤ) - 25567, (secondNumber d.x : ℤ)) := by
  obtain ⟨days, hat, hdays⟩ := monthAt_eq (y := d.x dateYear) h.civil.month_pos h.civil.month_le
  have hyear := yearStart_eq (d.x dateYear)
  have hpos := h.civil.day_pos
  unfold dateToN
  simp only [dateExtend_full h (i := dateYear) (by decide),
    dateExtend_full h (i := dateMonth) (by decide), dateExtend_full h (i := dateDay) (by decide),
    dateExtend_full h (i := dateHour) (by decide),
    dateExtend_full h (i := dateMinute) (by decide),
    dateExtend_full h (i := dateSecond) (by decide), hat, ok_bind]
  refine congrArg Except.ok (Prod.ext ?_ ?_)
  · unfold dayNumber
    split_ifs at hdays ⊢ <;> push_cast <;> omega
  · unfold secondNumber
    push_cast
    omega

/-! ## From numbers to a date -/

theorem tdiv_days (ns : ℤ) : (ns.tdiv 3600).tdiv 24 = ns.tdiv 86400 := by
  have hnat : ∀ n : ℕ, ((n : ℤ).tdiv 3600).tdiv 24 = (n : ℤ).tdiv 86400 := by
    intro n
    rw [Int.tdiv_eq_ediv_of_nonneg (Int.natCast_nonneg n),
      Int.tdiv_eq_ediv_of_nonneg (Int.natCast_nonneg n), Int.tdiv_eq_ediv_of_nonneg (by omega)]
    omega
  rcases Int.eq_nat_or_neg ns with ⟨n, rfl | rfl⟩
  · exact hnat n
  · rw [Int.neg_tdiv, Int.neg_tdiv, Int.neg_tdiv, hnat n]

/-- The seconds that are left have the sign of the number that is divided. -/
theorem tmod_days (ns : ℤ) : ns.tmod 86400 = ns - ns.tdiv 86400 * 86400 ∧
    -86400 < ns.tmod 86400 ∧ ns.tmod 86400 < 86400 := by
  refine ⟨by rw [Int.tmod_def, mul_comm], ?_⟩
  rcases Int.eq_nat_or_neg ns with ⟨n, rfl | rfl⟩
  · rw [Int.tmod_eq_emod_of_nonneg (Int.natCast_nonneg n)]
    omega
  · rw [Int.neg_tmod, Int.tmod_eq_emod_of_nonneg (Int.natCast_nonneg n)]
    omega

theorem yearDays_eq (y : ℕ) : yearDays y = yearLength (1900 + y) := by
  unfold yearDays yearLength
  simp only [leap_iff]

/-- The search for the year finds the one that the day is in. -/
theorem yearLoop_spec (rounds y : ℕ) (nd : ℤ) {n : ℕ} (hnd : 0 ≤ nd) (hrounds : nd < rounds)
    (hn : (yearStart y : ℤ) + nd = n) :
    ∃ y' nd', yearLoop rounds y nd = .ok (y', nd') ∧ 0 ≤ nd' ∧ (yearStart y' : ℤ) + nd' = n ∧
      n < yearStart (y' + 1) := by
  induction rounds generalizing y nd with
  | zero => omega
  | succ rounds ih =>
      have hdays := yearDays_eq y
      have hlength := yearLength_bounds (1900 + y)
      have hnext := yearStart_succ y
      rw [yearLoop]
      by_cases hlt : nd < yearDays y
      · rw [if_pos hlt]
        exact ⟨y, nd, rfl, hnd, hn, by omega⟩
      · rw [if_neg hlt]
        exact ih _ _ (by omega) (by omega) (by omega)

/-- The table of the lengths of the months. -/
theorem monthDays_eq {y m : ℕ} (h1 : 1 ≤ m) (h12 : m ≤ 12) :
    monthDays (yearDays y) m = daysInMonth (1900 + y) m := by
  have hleap : ∀ k < 12, monthDays 366 (k + 1) = daysInMonth 2000 (k + 1) := by decide
  have hother : ∀ k < 12, monthDays 365 (k + 1) = daysInMonth 1900 (k + 1) := by decide
  obtain ⟨k, rfl⟩ := Nat.exists_eq_add_of_le' h1
  unfold yearDays
  split_ifs with hy
  · rw [daysInMonth_congr (iff_of_true ((leap_iff y).mp hy) (by decide : LeapYear 2000))]
    exact hleap k (by omega)
  · rw [daysInMonth_congr (iff_of_false (mt (leap_iff y).mpr hy) (by decide : ¬ LeapYear 1900))]
    exact hother k (by omega)

/-- The search for the month finds the one that the day is in. -/
theorem monthLoop_spec {y n m : ℕ} (nd : ℤ) {e : ℕ} (hm : 1 ≤ m) (hmn : m + n = 13)
    (hnd : 0 ≤ nd) (he : (monthStart (1900 + y) m : ℤ) + nd = e)
    (hlt : e < yearLength (1900 + y)) :
    ∃ m' nd', monthLoop (yearDays y) n m nd = (m', nd') ∧ 1 ≤ m' ∧ m' ≤ 12 ∧ 0 ≤ nd' ∧
      nd' < daysInMonth (1900 + y) m' ∧ (monthStart (1900 + y) m' : ℤ) + nd' = e := by
  induction n generalizing m nd with
  | zero =>
      have hyear := monthStart_year (1900 + y)
      obtain rfl : m = 13 := by omega
      omega
  | succ n ih =>
      have hdays := monthDays_eq (y := y) hm (by omega)
      have hnext := monthStart_succ hm (1900 + y)
      rw [monthLoop]
      by_cases hin : nd < monthDays (yearDays y) m
      · rw [if_pos hin]
        exact ⟨m, nd, rfl, hm, by omega, hnd, by omega, he⟩
      · rw [if_neg hin]
        exact ih _ (by omega) (by omega) (by omega) (by omega)

/-- The number of the day that `n_to_date` looks for. -/
def daySought (nd ns : ℤ) : ℤ := nd + ns.tdiv 86400 + 25567

variable {nd ns : ℤ} {a b : ℕ}

/-- The first guess of the year is not too large. -/
theorem yearLoop_guess {n : ℤ} (hn : 0 ≤ n) :
    ∃ y e, yearLoop ((n - yearStart (n / 366).toNat).toNat + 1) (n / 366).toNat
        (n - yearStart (n / 366).toNat) = .ok (y, e) ∧
      0 ≤ e ∧ (yearStart y : ℤ) + e = n ∧ n < yearStart (y + 1) := by
  have hle := yearStart_le (n / 366).toNat
  obtain ⟨y, e, hloop, he, hy, hlt⟩ := yearLoop_spec ((n - yearStart (n / 366).toNat).toNat + 1)
    (n / 366).toNat (n - yearStart (n / 366).toNat) (n := n.toNat)
    (by omega) (by omega) (by omega)
  exact ⟨y, e, hloop, he, by omega, by omega⟩

/-- The first half of `n_to_date`. -/
theorem nToDate_days (hday : InInt (nd + ns.tdiv 86400))
    (hsought : InInt (daySought nd ns)) (hnonneg : 0 ≤ daySought nd ns) :
    ∃ y e, 0 ≤ e ∧ (yearStart y : ℤ) + e = daySought nd ns ∧ daySought nd ns < yearStart (y + 1) ∧
      nToDate nd ns a b = dateIn y e (ns.tmod 86400) a b := by
  obtain ⟨hleft, hlow, hhigh⟩ := tmod_days ns
  have hdiv : ns - ns.tdiv 86400 * 3600 * 24 = ns.tmod 86400 := by omega
  have hleftInt : InInt (ns.tmod 86400) := ⟨by omega, by omega⟩
  obtain ⟨y, e, hloop, he, hy, hlt⟩ := yearLoop_guess hnonneg
  have hstart := yearStart_eq (daySought nd ns / 366).toNat
  refine ⟨y, e, he, hy, hlt, ?_⟩
  simp only [nToDate, tdiv_days, hdiv, intResult_ok hday, intResult_ok hleftInt, ok_bind]
  unfold daySought at *
  rw [intResult_ok hsought, ok_bind, if_neg hnonneg.not_gt]
  push_cast
  rw [← hstart, hloop]
  rfl

/-- The second half of `n_to_date`. -/
theorem dateIn_ok {y : ℕ} {e : ℤ} (ns : ℤ) (hy : y ≤ 255) (he : 0 ≤ e)
    (hlt : (yearStart y : ℤ) + e < yearStart (y + 1)) (hpos : 0 ≤ ns) (hns : ns < 86400) :
    ∃ x, dateIn y e ns a b = .ok ⟨a, b, x⟩ ∧ Civil x ∧ x dateYear ≤ 255 ∧
      (dayNumber x : ℤ) = yearStart y + e ∧ (secondNumber x : ℤ) = ns := by
  have hnext := yearStart_succ y
  obtain ⟨m, nd, hmonth, hm1, hm12, hnd, hday, hsum⟩ := monthLoop_spec (y := y) (n := 12) (m := 1)
    e (e := e.toNat) le_rfl rfl he (by rw [monthStart_one]; omega) (by omega)
  refine ⟨fields y m (1 + nd).toNat (ns / 3600).toNat ((ns - 3600 * (ns / 3600)) / 60).toNat
    (ns - 60 * ((ns - 3600 * (ns / 3600)) / 60 + 60 * (ns / 3600))).toNat,
    ?_, ⟨?_, ?_, ?_, ?_, ?_, ?_, ?_⟩, ?_, ?_, ?_⟩
  · unfold dateIn
    rw [if_neg (by omega), hmonth]
    exact if_neg (by omega)
  · exact hm1
  · exact hm12
  · change 1 ≤ (1 + nd).toNat
    omega
  · change (1 + nd).toNat ≤ daysInMonth (1900 + y) m
    omega
  · change (ns / 3600).toNat ≤ 23
    omega
  · change ((ns - 3600 * (ns / 3600)) / 60).toNat ≤ 59
    omega
  · change (ns - 60 * ((ns - 3600 * (ns / 3600)) / 60 + 60 * (ns / 3600))).toNat ≤ 59
    omega
  · exact hy
  · change ((yearStart y + monthStart (1900 + y) m + ((1 + nd).toNat - 1) : ℕ) : ℤ) = _
    omega
  · change ((3600 * (ns / 3600).toNat + 60 * ((ns - 3600 * (ns / 3600)) / 60).toNat +
      (ns - 60 * ((ns - 3600 * (ns / 3600)) / 60 + 60 * (ns / 3600))).toNat : ℕ) : ℤ) = ns
    omega

theorem dateIn_error {y : ℕ} {e : ℤ} (h : 255 < y ∨ ns < 0) :
    ∃ text, dateIn y e ns a b = .error (.error text) := by
  unfold dateIn
  by_cases hy : 255 < y
  · exact ⟨_, if_pos hy⟩
  · rw [if_neg hy]
    exact ⟨_, if_pos (.inl (h.resolve_left hy))⟩

/-- The days of the years 1900 to 2155. -/
def lastDay : ℕ := 93502

theorem yearStart_256 : yearStart 256 = lastDay := by
  have heq := yearStart_eq 256
  unfold lastDay
  omega

theorem nToDate_ok (nd ns : ℤ) (hday : InInt (nd + ns.tdiv 86400))
    (hsought : InInt (daySought nd ns)) (hnonneg : 0 ≤ daySought nd ns)
    (hlast : daySought nd ns < lastDay) (hleft : 0 ≤ ns.tmod 86400) :
    ∃ x, nToDate nd ns a b = .ok ⟨a, b, x⟩ ∧ Civil x ∧ x dateYear ≤ 255 ∧
      (dayNumber x : ℤ) = daySought nd ns ∧ (secondNumber x : ℤ) = ns.tmod 86400 := by
  obtain ⟨y, e, he, hy, hlt, hto⟩ := nToDate_days (a := a) (b := b) hday hsought hnonneg
  have hy255 : y ≤ 255 := by
    by_contra hgt
    have hmono := yearStart_mono (Nat.succ_le_iff.mpr (not_le.mp hgt))
    rw [yearStart_256] at hmono
    omega
  obtain ⟨-, -, hhigh⟩ := tmod_days ns
  obtain ⟨x, hx, hcivil, hyear, hdayNumber, hsecond⟩ :=
    dateIn_ok (a := a) (b := b) _ hy255 he (by omega) hleft hhigh
  exact ⟨x, hto.trans hx, hcivil, hyear, hdayNumber.trans hy, hsecond⟩

theorem nToDate_error (hday : InInt (nd + ns.tdiv 86400))
    (hsought : InInt (daySought nd ns))
    (h : daySought nd ns < 0 ∨ (lastDay : ℤ) ≤ daySought nd ns ∨ ns.tmod 86400 < 0) :
    ∃ text, nToDate nd ns a b = .error (.error text) := by
  by_cases hnonneg : 0 ≤ daySought nd ns
  · obtain ⟨y, e, he, hy, hlt, hto⟩ := nToDate_days (a := a) (b := b) hday hsought hnonneg
    rw [hto]
    apply dateIn_error
    rcases h with h | h | h
    · omega
    · left
      by_contra hle
      have hmono : yearStart (y + 1) ≤ yearStart 256 := yearStart_mono (by omega)
      rw [yearStart_256] at hmono
      omega
    · exact .inr h
  · obtain ⟨hleft, hlow, hhigh⟩ := tmod_days ns
    have hdiv : ns - ns.tdiv 86400 * 3600 * 24 = ns.tmod 86400 := by omega
    have hleftInt : InInt (ns.tmod 86400) := ⟨by omega, by omega⟩
    refine ⟨"Day number falls before 1900", ?_⟩
    simp only [nToDate, tdiv_days, hdiv, intResult_ok hday, intResult_ok hleftInt, ok_bind]
    unfold daySought at hsought hnonneg
    rw [intResult_ok hsought, ok_bind, if_pos (not_le.mp hnonneg)]

theorem nToDate_undefined (hday : InInt (nd + ns.tdiv 86400))
    (hsought : ¬ InInt (daySought nd ns)) : nToDate nd ns a b = .error .undefined := by
  obtain ⟨hleft, hlow, hhigh⟩ := tmod_days ns
  have hdiv : ns - ns.tdiv 86400 * 3600 * 24 = ns.tmod 86400 := by omega
  have hleftInt : InInt (ns.tmod 86400) := ⟨by omega, by omega⟩
  simp only [nToDate, tdiv_days, hdiv, intResult_ok hday, intResult_ok hleftInt, ok_bind]
  unfold daySought at hsought
  rw [intResult_error hsought]
  rfl

/-! ## Dates at a distance -/

/-- A date with all fields is one that the parser may make. -/
theorem Full.legal (h : Full d) : Legal d where
  le := by
    rw [h.dfrom, h.dto]
    decide
  le_second := h.dto.le
  bounds := by
    intro i _ hi
    rw [h.dto] at hi
    have hcivil := h.civil
    have hday := hcivil.day_le.trans (daysInMonth_le _ _)
    match i, hi with
    | dateYear, _ =>
        have hyear : d.x dateYear + 1900 ≤ 255 + 1900 := Nat.add_le_add_right h.year_le 1900
        exact ⟨Nat.le_add_left _ _, hyear⟩
    | dateMonth, _ => exact ⟨hcivil.month_pos, hcivil.month_le⟩
    | dateDay, _ => exact ⟨hcivil.day_pos, hday⟩
    | dateHour, _ => exact ⟨Nat.zero_le _, hcivil.hour_le⟩
    | dateMinute, _ => exact ⟨Nat.zero_le _, hcivil.minute_le⟩
    | dateSecond, _ => exact ⟨Nat.zero_le _, hcivil.second_le⟩
  day := by
    intro _ _
    refine ⟨1900 + d.x dateYear, fun _ => add_comm _ _, h.civil.day_le⟩

theorem Full.makeDate (h : Full d) : Dates.makeDate d = .ok d := by
  obtain ⟨b, hcheck, hb⟩ := dateCheck_eq d fun _ _ => ⟨h.civil.month_pos, h.civil.month_le⟩
  rw [Dates.makeDate, hcheck, hb.mpr h.legal.day]
  rfl

/-- The result is the only date whose number is the target, or an error if there is none. -/
def AddsExactly (r : Except Fault Date) (target : ℤ) : Prop :=
  (∃ d, r = .ok d ∧ Full d ∧ (instant d.x : ℤ) = target ∧
    ∀ d', Full d' → (instant d'.x : ℤ) = target → ∀ i ≤ dateSecond, d'.x i = d.x i) ∨
  (∃ text, r = .error (.error text)) ∧ ∀ d, Full d → (instant d.x : ℤ) ≠ target

theorem addsExactly_ok (h : Full d) {target : ℤ} (htarget : (instant d.x : ℤ) = target) :
    AddsExactly (.ok d) target := by
  refine .inl ⟨d, rfl, h, htarget, fun d' h' htarget' => ?_⟩
  exact h'.civil.eq_of_instant h.civil (by omega)

theorem Full.instant_lt (h : Full d) : instant d.x < 86400 * lastDay := by
  have hday := h.civil.dayNumber_lt
  have hsecond := h.civil.secondNumber_lt
  have hmono : yearStart (d.x dateYear + 1) ≤ yearStart 256 :=
    yearStart_mono (Nat.succ_le_succ h.year_le)
  rw [yearStart_256] at hmono
  unfold instant
  omega

/-- There is a date for every number of the range. -/
theorem exists_full {target : ℤ} (h0 : 0 ≤ target) (hlt : target < 86400 * lastDay) :
    ∃ d, Full d ∧ (instant d.x : ℤ) = target := by
  obtain ⟨y, e, -, he, hy, hlt'⟩ := yearLoop_guess (n := target / 86400) (by omega)
  have hy255 : y ≤ 255 := by
    by_contra hgt
    have hmono := yearStart_mono (Nat.succ_le_iff.mpr (not_le.mp hgt))
    rw [yearStart_256] at hmono
    omega
  obtain ⟨x, -, hcivil, hyear, hday, hsecond⟩ := dateIn_ok (a := dateYear) (b := dateSecond)
    (target % 86400) hy255 he (by omega) (by omega) (by omega)
  refine ⟨⟨dateYear, dateSecond, x⟩, ⟨rfl, rfl, hcivil, hyear⟩, ?_⟩
  unfold instant
  push_cast
  omega

theorem addsExactly_error {text : String} {target : ℤ} :
    AddsExactly (.error (.error text)) target ↔ ¬ (0 ≤ target ∧ target < 86400 * lastDay) := by
  constructor
  · intro h hrange
    obtain ⟨d, hd, htarget⟩ := exists_full hrange.1 hrange.2
    rcases h with ⟨d', heq, -⟩ | ⟨-, hno⟩
    · cases heq
    · exact hno d hd htarget
  · refine fun hrange => .inr ⟨⟨text, rfl⟩, fun d hd htarget => hrange ?_⟩
    have hlt := hd.instant_lt
    omega

theorem not_addsExactly_undefined (target : ℤ) : ¬ AddsExactly (.error .undefined) target := by
  rintro (⟨d, heq, -⟩ | ⟨⟨text, heq⟩, -⟩)
  · cases heq
  · cases heq

/-- `n_to_date` and `make_date` give the date with a number of days and a number of seconds
unless the seconds that are left are negative. -/
theorem nToDate_addsExactly (hday : InInt (nd + ns.tdiv 86400))
    (hsought : InInt (daySought nd ns)) :
    AddsExactly (nToDate nd ns dateYear dateSecond >>= makeDate) (86400 * (nd + 25567) + ns) ↔
      (0 ≤ 86400 * (nd + 25567) + ns → 86400 * (nd + 25567) + ns < 86400 * lastDay →
        0 ≤ ns.tmod 86400) := by
  obtain ⟨hleft, hlow, hhigh⟩ := tmod_days ns
  have htarget : 86400 * (nd + 25567) + ns = 86400 * daySought nd ns + ns.tmod 86400 := by
    unfold daySought
    omega
  rw [htarget]
  by_cases herror : daySought nd ns < 0 ∨ (lastDay : ℤ) ≤ daySought nd ns ∨ ns.tmod 86400 < 0
  · obtain ⟨text, htext⟩ := nToDate_error (a := dateYear) (b := dateSecond) hday hsought herror
    rw [htext, error_bind, addsExactly_error]
    omega
  · push Not at herror
    obtain ⟨x, hx, hcivil, hyear, hdayNumber, hsecond⟩ := nToDate_ok nd ns (a := dateYear)
      (b := dateSecond) hday hsought herror.1 herror.2.1 herror.2.2
    have hfull : Full ⟨dateYear, dateSecond, x⟩ := ⟨rfl, rfl, hcivil, hyear⟩
    refine iff_of_true ?_ fun _ _ => herror.2.2
    rw [hx, ok_bind, hfull.makeDate]
    apply addsExactly_ok hfull
    unfold instant
    push_cast
    omega

/-! ## The units -/

inductive Units
  | second
  | minute
  | hour
  | day

/-- The number of seconds of a unit. -/
def Units.length : Units → ℕ
  | .second => 1
  | .minute => 60
  | .hour => 3600
  | .day => 86400

/-- The function that adds a number of units. -/
def Units.add (now buf : ℕ → ℕ) : Units → Date → ℤ → Except Fault Date
  | .second => dateAddSecond now buf
  | .minute => dateAddMinute now buf
  | .hour => dateAddHour now buf
  | .day => dateAddDay now buf

/-- Neither does the sum of seconds overflow nor are negative seconds left over for a date
of the range. -/
def SecondsFit (unit : ℕ) (d : Date) (k : ℤ) : Prop :=
  InInt (unit * k) ∧ InInt (secondNumber d.x + unit * k) ∧
    (0 ≤ instant d.x + unit * k → instant d.x + unit * k < 86400 * lastDay →
      0 ≤ (secondNumber d.x + unit * k).tmod 86400)

/-- The sum of days, counted from 1970 and from 1900, does not overflow. -/
def DaysFit (d : Date) (k : ℤ) : Prop :=
  InInt ((dayNumber d.x : ℤ) - 25567 + k) ∧ InInt (dayNumber d.x + k)

/-- Nothing goes wrong. -/
def Units.Fits : Units → Date → ℤ → Prop
  | .day, d, k => DaysFit d k
  | unit, d, k => SecondsFit unit.length d k

theorem Full.dayNumber_lt (h : Full d) : dayNumber d.x < lastDay := by
  have hlt := h.instant_lt
  unfold instant at hlt
  omega

theorem dateAddSeconds_iff (h : Full d) (unit : ℕ) (k : ℤ) :
    AddsExactly (dateAddSeconds now buf unit d k) (instant d.x + unit * k) ↔
      SecondsFit unit d k := by
  have hlt := h.dayNumber_lt
  have hdate : dateAddSeconds now buf unit d k =
      (intResult (unit * k) >>= fun product => intResult (secondNumber d.x + product) >>= fun ns =>
        nToDate ((dayNumber d.x : ℤ) - 25567) ns dateYear dateSecond >>= makeDate) := by
    unfold dateAddSeconds
    rw [dateToN_eq h, h.dfrom, h.dto]
    rfl
  rw [hdate]
  unfold SecondsFit
  by_cases hproduct : InInt (unit * k)
  · by_cases hsum : InInt (secondNumber d.x + unit * k)
    · obtain ⟨hleft, hlow, hhigh⟩ := tmod_days (secondNumber d.x + unit * k)
      unfold lastDay at hlt
      have hinInt := hsum
      unfold InInt at hinInt
      have hday : InInt ((dayNumber d.x : ℤ) - 25567 +
          ((secondNumber d.x + unit * k : ℤ)).tdiv 86400) := ⟨by omega, by omega⟩
      have hsought : InInt (daySought ((dayNumber d.x : ℤ) - 25567)
          (secondNumber d.x + unit * k)) := by
        unfold daySought
        exact ⟨by omega, by omega⟩
      have hiff := nToDate_addsExactly hday hsought
      have htarget : 86400 * ((dayNumber d.x : ℤ) - 25567 + 25567) +
          (secondNumber d.x + unit * k) = instant d.x + unit * k := by
        unfold instant
        push_cast
        ring
      rw [htarget] at hiff
      rw [intResult_ok hproduct, ok_bind, intResult_ok hsum, ok_bind, hiff]
      exact ⟨fun hfits => ⟨hproduct, hsum, hfits⟩, fun hfits => hfits.2.2⟩
    · rw [intResult_ok hproduct, ok_bind, intResult_error hsum, error_bind]
      exact iff_of_false (not_addsExactly_undefined _) fun hfits => hsum hfits.2.1
  · rw [intResult_error hproduct, error_bind]
    exact iff_of_false (not_addsExactly_undefined _) fun hfits => hproduct hfits.1

theorem dateAddDay_iff (h : Full d) (k : ℤ) :
    AddsExactly (dateAddDay now buf d k) (instant d.x + 86400 * k) ↔ DaysFit d k := by
  have hlt := h.dayNumber_lt
  have hsecond := h.civil.secondNumber_lt
  have hdate : dateAddDay now buf d k =
      (intResult ((dayNumber d.x : ℤ) - 25567 + k) >>= fun nd =>
        nToDate nd (secondNumber d.x) dateYear dateSecond >>= makeDate) := by
    unfold dateAddDay
    rw [dateToN_eq h, h.dfrom, h.dto]
    rfl
  have hdiv : (secondNumber d.x : ℤ).tdiv 86400 = 0 :=
    Int.tdiv_eq_zero_of_lt (by omega) (by omega)
  have hsoughtEq : daySought ((dayNumber d.x : ℤ) - 25567 + k) (secondNumber d.x) =
      dayNumber d.x + k := by
    unfold daySought
    rw [hdiv]
    ring
  rw [hdate]
  unfold DaysFit
  by_cases hday : InInt ((dayNumber d.x : ℤ) - 25567 + k)
  · have hday' : InInt ((dayNumber d.x : ℤ) - 25567 + k + (secondNumber d.x : ℤ).tdiv 86400) := by
      rwa [hdiv, add_zero]
    rw [intResult_ok hday, ok_bind]
    by_cases hsought : InInt (dayNumber d.x + k)
    · have hiff := nToDate_addsExactly hday' (hsoughtEq ▸ hsought)
      have htarget : 86400 * ((dayNumber d.x : ℤ) - 25567 + k + 25567) + secondNumber d.x =
          instant d.x + 86400 * k := by
        unfold instant
        push_cast
        ring
      have hleft : 0 ≤ (secondNumber d.x : ℤ).tmod 86400 :=
        Int.tmod_nonneg _ (Int.natCast_nonneg _)
      rw [htarget] at hiff
      exact iff_of_true (hiff.mpr fun _ _ => hleft) ⟨hday, hsought⟩
    · rw [nToDate_undefined hday' (hsoughtEq ▸ hsought), error_bind]
      exact iff_of_false (not_addsExactly_undefined _) fun hfits => hsought hfits.2
  · rw [intResult_error hday, error_bind]
    exact iff_of_false (not_addsExactly_undefined _) fun hfits => hday hfits.1

/-- The functions add exactly if nothing goes wrong. -/
theorem Units.add_iff (h : Full d) (unit : Units) (k : ℤ) :
    AddsExactly (unit.add now buf d k) (instant d.x + unit.length * k) ↔ unit.Fits d k := by
  cases unit with
  | second => exact dateAddSeconds_iff h 1 k
  | minute => exact dateAddSeconds_iff h 60 k
  | hour => exact dateAddSeconds_iff h 3600 k
  | day => exact dateAddDay_iff h k

/-! ## Days of the week -/

/-- `n_to_date` gives a date back. -/
def Inverts (now buf : ℕ → ℕ) (d : Date) : Prop :=
  ∃ d', (dateToN now buf d >>= fun n => nToDate n.1 n.2 d.dfrom d.dto) = .ok d' ∧
    d'.dfrom = d.dfrom ∧ d'.dto = d.dto ∧ ∀ i ≤ dateSecond, d'.x i = d.x i

/-- The day of the week is a number from 0 to 6, and on the next day it is the next one. -/
def Weekday (now buf : ℕ → ℕ) (d : Date) : Prop :=
  ∃ w, dateToWday now buf d = .ok w ∧ 0 ≤ w ∧ w ≤ 6 ∧
    ∀ d', Full d' → dayNumber d'.x = dayNumber d.x + 1 →
      ∃ w', dateToWday now buf d' = .ok w' ∧ 7 ∣ w' - (w + 1)

/-- The day is not before the 28th of December 1969, or it is a Sunday. -/
def WeekdayFits (d : Date) : Prop :=
  25563 ≤ dayNumber d.x ∨ (7 : ℤ) ∣ dayNumber d.x - 25563

theorem inverts (now buf : ℕ → ℕ) (h : Full d) : Inverts now buf d := by
  have hlt := h.dayNumber_lt
  have hsecond := h.civil.secondNumber_lt
  have hdiv : (secondNumber d.x : ℤ).tdiv 86400 = 0 :=
    Int.tdiv_eq_zero_of_lt (by omega) (by omega)
  have hmod : (secondNumber d.x : ℤ).tmod 86400 = secondNumber d.x :=
    Int.tmod_eq_of_lt (by omega) (by omega)
  have hsought : daySought ((dayNumber d.x : ℤ) - 25567) (secondNumber d.x) = dayNumber d.x := by
    unfold daySought
    rw [hdiv]
    ring
  obtain ⟨x, hx, hcivil, hyear, hday, hseconds⟩ := nToDate_ok ((dayNumber d.x : ℤ) - 25567)
    (secondNumber d.x) (a := d.dfrom) (b := d.dto)
    (by rw [hdiv]; unfold lastDay at hlt; exact ⟨by omega, by omega⟩)
    (by rw [hsought]; unfold lastDay at hlt; exact ⟨by omega, by omega⟩)
    (by omega) (by omega) (by omega)
  refine ⟨⟨d.dfrom, d.dto, x⟩, ?_, rfl, rfl, ?_⟩
  · rw [dateToN_eq h, ok_bind]
    exact hx
  · apply hcivil.eq_of_instant h.civil
    unfold instant
    omega

/-- The remainder has the sign of the number. -/
theorem tmod_week (r : ℤ) : r.tmod 7 = r - 7 * r.tdiv 7 ∧ r.tmod 7 < 7 ∧
    (0 ≤ r.tmod 7 ↔ 0 ≤ r ∨ 7 ∣ r) := by
  refine ⟨Int.tmod_def r 7, Int.tmod_lt_of_pos r (by decide), ?_⟩
  rcases Int.eq_nat_or_neg r with ⟨n, rfl | rfl⟩
  · rw [Int.tmod_eq_emod_of_nonneg (Int.natCast_nonneg n)]
    omega
  · rw [Int.neg_tmod, Int.tmod_eq_emod_of_nonneg (Int.natCast_nonneg n)]
    omega

theorem dateToWday_eq (h : Full d) :
    dateToWday now buf d = .ok (((dayNumber d.x : ℤ) - 25563).tmod 7) := by
  have hday : (dayNumber d.x : ℤ) - 25567 + 4 = dayNumber d.x - 25563 := by ring
  rw [dateToWday, dateToN_eq h, ok_bind, hday]
  rfl

theorem weekday_iff (h : Full d) : Weekday now buf d ↔ WeekdayFits d := by
  obtain ⟨hmod, hlt, hsign⟩ := tmod_week ((dayNumber d.x : ℤ) - 25563)
  unfold WeekdayFits
  constructor
  · rintro ⟨w, hw, hpos, -⟩
    rw [dateToWday_eq h] at hw
    cases hw
    have hfits := hsign.mp hpos
    omega
  · intro hfits
    refine ⟨_, dateToWday_eq h, hsign.mpr (by omega), by omega, fun d' h' hnext => ?_⟩
    obtain ⟨hmod', -, -⟩ := tmod_week ((dayNumber d'.x : ℤ) - 25563)
    exact ⟨_, dateToWday_eq h', by omega⟩

/-- Date arithmetic is exact at a date. -/
def Exact (now buf : ℕ → ℕ) (unit : Units) (d : Date) (k : ℤ) : Prop :=
  AddsExactly (unit.add now buf d k) (instant d.x + unit.length * k) ∧ Inverts now buf d ∧
    Weekday now buf d

/-- Date arithmetic is exact at a date if and only if no sum overflows, no negative seconds
are left over for a date of the range, and the remainder by 7 is not negative. -/
theorem exact_iff (now buf : ℕ → ℕ) (h : Full d) (unit : Units) (k : BitVec 32) :
    Exact now buf unit d k.toInt ↔ unit.Fits d k.toInt ∧ WeekdayFits d := by
  unfold Exact
  rw [Units.add_iff h, weekday_iff h]
  exact ⟨fun hexact => ⟨hexact.1, hexact.2.2⟩,
    fun hfits => ⟨hfits.1, inverts now buf h, hfits.2⟩⟩

theorem full_newYear : Full ⟨dateYear, dateSecond, fields 70 1 1 0 0 0⟩ where
  dfrom := rfl
  dto := rfl
  civil := by constructor <;> decide
  year_le := by decide

theorem dayNumber_newYear : dayNumber (fields 70 1 1 0 0 0) = 25567 := by
  have hyear : yearStart 70 = 25567 := by
    have heq := yearStart_eq 70
    omega
  change yearStart 70 + monthStart 1970 1 + 0 = 25567
  rw [hyear, monthStart_one]

/-- An hour after the beginning of 1970. -/
theorem exact_iff_newYear : Exact id id .hour ⟨dateYear, dateSecond, fields 70 1 1 0 0 0⟩ 1 := by
  refine (exact_iff id id full_newYear .hour 1).mpr ⟨⟨by decide, by decide, fun _ _ => by decide⟩, ?_⟩
  left
  rw [dayNumber_newYear]
  decide

/-- A second before the beginning of 1970. -/
theorem not_exact_secondBefore : Full ⟨dateYear, dateSecond, fields 70 1 1 0 0 0⟩ ∧
    ¬ Exact id id .second ⟨dateYear, dateSecond, fields 70 1 1 0 0 0⟩ (-1) := by
  refine ⟨full_newYear, fun hexact => ?_⟩
  obtain ⟨-, -, hleft⟩ := (Units.add_iff full_newYear .second (-1)).mp hexact.1
  have hinstant : instant (fields 70 1 1 0 0 0) = 86400 * 25567 := by
    rw [instant, dayNumber_newYear]
    rfl
  rw [hinstant] at hleft
  exact absurd (hleft (by decide) (by decide)) (by decide)

end Lush.Dates
