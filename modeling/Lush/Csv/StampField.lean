import Lush.Dates.Date
import Lush.Ints
import Lush.Library.Gregorian

/-!
# Stamps in csv files

`_csvw-write-stamp-field` divides the microseconds of a stamp down to days, and finds the
date of a day from the era of 400 years, the year of the era that begins in March, and the
day of that year.  Every operation is checked for overflow.
-/

namespace Lush.Csv

open Gregorian (Moment Civil instant dayNumber LeapYear daysInMonth)
open Text (ascii)

/-! ## The fields -/

/-- `secs` and `usecs`. -/
def splitMicros (lv : ℤ) : Except Fault (ℤ × ℤ) := do
  let secs := lv.tdiv 1000000
  let usecs := lv.tmod 1000000
  if usecs < 0 then
    let secs ← longResult (secs - 1)
    let usecs ← longResult (usecs + 1000000)
    .ok (secs, usecs)
  else .ok (secs, usecs)

/-- `days` and `rem`. -/
def splitSeconds (secs : ℤ) : Except Fault (ℤ × ℤ) := do
  let days := secs.tdiv 86400
  let rem := intCast (secs.tmod 86400)
  if rem < 0 then
    let days ← longResult (days - 1)
    let rem ← intResult (rem + 86400)
    .ok (days, rem)
  else .ok (days, rem)

/-- The number that is divided for the era. -/
def eraBase (z : ℤ) : Except Fault ℤ := if 0 ≤ z then .ok z else longResult (z - 146096)

/-- `era` and `doe`. -/
def splitEra (days : ℤ) : Except Fault (ℤ × ℤ) := do
  let z ← longResult (days + 719468)
  let n ← eraBase z
  let era := n.tdiv 146097
  let t ← longResult (era * 146097)
  let doe ← longResult (z - t)
  .ok (era, intCast doe)

/-- `yoe` and `doy`. -/
def splitYear (doe : ℤ) : Except Fault (ℤ × ℤ) := do
  let t ← intResult (doe - doe.tdiv 1460)
  let t ← intResult (t + doe.tdiv 36524)
  let t ← intResult (t - doe.tdiv 146096)
  let yoe := t.tdiv 365
  let t ← intResult (365 * yoe)
  let t ← intResult (t + yoe.tdiv 4)
  let t ← intResult (t - yoe.tdiv 100)
  let doy ← intResult (doe - t)
  .ok (yoe, doy)

/-- `mp` and `d`. -/
def splitMonth (doy : ℤ) : Except Fault (ℤ × ℤ) := do
  let t ← intResult (5 * doy)
  let t ← intResult (t + 2)
  let mp := t.tdiv 153
  let t ← intResult (153 * mp)
  let t ← intResult (t + 2)
  let t ← intResult (doy - t.tdiv 5)
  let d ← intResult (t + 1)
  .ok (mp, d)

/-- `January` and `February` are in the next year. -/
def nextYear (mo y : ℤ) : Except Fault ℤ := if mo ≤ 2 then intResult (y + 1) else .ok y

/-- The date of a day. -/
def civilDate (days : ℤ) : Except Fault (ℤ × ℤ × ℤ) := do
  let (era, doe) ← splitEra days
  let (yoe, doy) ← splitYear doe
  let t ← longResult (era * 400)
  let t ← longResult (yoe + t)
  let y := intCast t
  let (mp, d) ← splitMonth doy
  let mo ← intResult (mp + if mp < 10 then 3 else -9)
  let y ← nextYear mo y
  .ok (y, mo, d)

/-- The fields of a stamp. -/
def stampFields (lv : ℤ) : Except Fault Moment := do
  let (secs, usecs) ← splitMicros lv
  let (days, rem) ← splitSeconds secs
  let (y, mo, d) ← civilDate days
  .ok ⟨y, mo, d, rem.tdiv 3600, (rem.tmod 3600).tdiv 60, rem.tmod 60, usecs⟩

/-! ## The field of the file -/

/-- `%0`*width*`d`. -/
def printed (width : ℕ) (x : ℤ) : List UInt8 :=
  if x < 0 then ascii '-' :: Dates.padded (width - 1) x.natAbs else Dates.padded width x.natAbs

/-- The text of a stamp. -/
def stampText (t : Moment) : List UInt8 :=
  printed 4 t.year ++ ascii '-' :: printed 2 t.month ++ ascii '-' :: printed 2 t.day ++
    ascii ' ' :: printed 2 t.hour ++ ascii ':' :: printed 2 t.minute ++
    ascii ':' :: printed 2 t.second ++
    if t.micro = 0 then [] else ascii '.' :: printed 6 t.micro

/-- The stamp that stands for no stamp. -/
def stampNull : BitVec 64 := BitVec.intMin 64

/-- `_csvw-write-stamp-field`. -/
def csvwWriteStampField (val : BitVec 64) (nullStr : CString) (delim : UInt8) (isLast : Bool) :
    Except Fault (List UInt8) := do
  let text ← if val = stampNull then .ok nullStr.bytes else stampText <$> stampFields val.toInt
  .ok (text ++ [if isLast then ascii '\n' else delim])

/-! ## The calendar -/

variable {lv secs days doe doy : ℤ}

theorem splitMicros_ok (h : InLong lv) :
    splitMicros lv = .ok (lv / 1000000, lv % 1000000) := by
  unfold InLong at h
  unfold splitMicros
  by_cases hneg : lv.tmod 1000000 < 0
  · obtain ⟨hdiv, hmod⟩ := floor_of_tmod_neg (by decide) hneg
    have hsecs : InLong (lv / 1000000) := by
      unfold InLong
      omega
    have husecs : InLong (lv % 1000000) := by
      unfold InLong
      omega
    simp only [if_pos hneg]
    rw [hdiv, hmod, longResult_ok hsecs, ok_bind, longResult_ok husecs, ok_bind]
  · obtain ⟨hdiv, hmod⟩ := floor_of_tmod_nonneg (by decide) hneg
    simp only [if_neg hneg]
    rw [hdiv, hmod]

/-- The remainder fits in an `int`. -/
theorem intCast_tmod (secs : ℤ) : intCast (secs.tmod 86400) = secs.tmod 86400 := by
  apply intCast_of_inInt
  have hlo := Int.lt_tmod_of_pos secs (show (0 : ℤ) < 86400 by decide)
  have hhi := Int.tmod_lt_of_pos secs (show (0 : ℤ) < 86400 by decide)
  unfold InInt
  omega

theorem splitSeconds_ok (h : InLong secs) :
    splitSeconds secs = .ok (secs / 86400, secs % 86400) := by
  unfold InLong at h
  unfold splitSeconds
  rw [intCast_tmod]
  by_cases hneg : secs.tmod 86400 < 0
  · obtain ⟨hdiv, hmod⟩ := floor_of_tmod_neg (by decide) hneg
    have hdays : InLong (secs / 86400) := by
      unfold InLong
      omega
    have hrem : InInt (secs % 86400) := by
      unfold InInt
      omega
    simp only [if_pos hneg]
    rw [hdiv, hmod, longResult_ok hdays, ok_bind, intResult_ok hrem, ok_bind]
  · obtain ⟨hdiv, hmod⟩ := floor_of_tmod_nonneg (by decide) hneg
    simp only [if_neg hneg]
    rw [hdiv, hmod]

/-- The era is rounded down. -/
theorem tdiv_era (z : ℤ) : (if 0 ≤ z then z else z - 146096).tdiv 146097 = z / 146097 := by
  split_ifs with hz
  · exact Int.tdiv_eq_ediv_of_nonneg hz
  · have hneg : (z - 146096).tdiv 146097 = -((146096 - z) / 146097) := by
      rw [← neg_sub 146096 z, Int.neg_tdiv, Int.tdiv_eq_ediv_of_nonneg (by omega)]
    omega

theorem splitEra_ok (h : InLong (days + 719468)) (h' : -9223372036854000000 ≤ days) :
    splitEra days = .ok ((days + 719468) / 146097, (days + 719468) % 146097) := by
  set z := days + 719468 with hz
  have hera := tdiv_era z
  have hn : eraBase z = .ok (if 0 ≤ z then z else z - 146096) := by
    unfold eraBase
    split_ifs
    · rfl
    · apply longResult_ok
      unfold InLong at h ⊢
      omega
  have hprod : InLong (z / 146097 * 146097) := by
    unfold InLong at h ⊢
    omega
  have hmod : z - z / 146097 * 146097 = z % 146097 := by omega
  have hdoe : InLong (z % 146097) := by
    unfold InLong
    omega
  have hcast : InInt (z % 146097) := by
    unfold InInt
    omega
  unfold splitEra
  rw [← hz, longResult_ok h, ok_bind, hn, ok_bind]
  simp only
  rw [hera, longResult_ok hprod, ok_bind, hmod, longResult_ok hdoe, ok_bind,
    intCast_of_inInt hcast]

/-- A day of an era is in one of its centuries, in one of the four years that begin with a
March, and in one of these years. -/
theorem exists_year (h0 : 0 ≤ doe) (h : doe < 146097) :
    ∃ p q r u : ℤ, doe = 36524 * p + 1461 * q + 365 * r + u ∧ 0 ≤ p ∧ p ≤ 3 ∧ 0 ≤ q ∧ q ≤ 24 ∧
      0 ≤ r ∧ r ≤ 3 ∧ 0 ≤ u ∧ u ≤ 365 ∧ (u = 365 → r = 3 ∧ (q < 24 ∨ p = 3)) := by
  have hp : ∃ p w : ℤ, doe = 36524 * p + w ∧ 0 ≤ p ∧ p ≤ 3 ∧ 0 ≤ w ∧ w ≤ 36524 ∧
      (w = 36524 → p = 3) := by
    refine ⟨min 3 (doe / 36524), doe - 36524 * min 3 (doe / 36524), ?_⟩
    omega
  obtain ⟨p, w, rfl, hp⟩ := hp
  have hq : ∃ q v : ℤ, w = 1461 * q + v ∧ 0 ≤ q ∧ q ≤ 24 ∧ 0 ≤ v ∧ v ≤ 1460 := by
    refine ⟨w / 1461, w % 1461, ?_⟩
    omega
  obtain ⟨q, v, rfl, hq⟩ := hq
  have hr : ∃ r u : ℤ, v = 365 * r + u ∧ 0 ≤ r ∧ r ≤ 3 ∧ 0 ≤ u ∧ u ≤ 365 ∧ (u = 365 → r = 3) := by
    refine ⟨min 3 (v / 365), v - 365 * min 3 (v / 365), ?_⟩
    omega
  obtain ⟨r, u, rfl, hr⟩ := hr
  refine ⟨p, q, r, u, ?_⟩
  omega

/-- The leap days that are taken off leave years of 365 days. -/
theorem yoe_eq {p q r u : ℤ} (hp : 0 ≤ p) (hp3 : p ≤ 3) (hq : 0 ≤ q) (hq24 : q ≤ 24) (hr : 0 ≤ r)
    (hr3 : r ≤ 3) (hu : 0 ≤ u) (hu365 : u ≤ 365) (hleap : u = 365 → r = 3 ∧ (q < 24 ∨ p = 3))
    (hdoe : doe = 36524 * p + 1461 * q + 365 * r + u) :
    (doe - doe / 1460 + doe / 36524 - doe / 146096) / 365 = 100 * p + 4 * q + r := by
  -- the last day of the era is counted twice
  have hcentury : doe / 146096 = 0 ∧ doe / 36524 = p ∨
      doe / 146096 = 1 ∧ doe / 36524 = 4 ∧ p = 3 ∧ q = 24 ∧ r = 3 ∧ u = 365 := by
    omega
  have hfour : doe / 1460 = 25 * p + q + (24 * p + q + 365 * r + u) / 1460 := by omega
  omega

theorem splitYear_run (h0 : 0 ≤ doe) (h : doe < 146097) :
    splitYear doe =
      let yoe := (doe - doe / 1460 + doe / 36524 - doe / 146096) / 365
      .ok (yoe, doe - (365 * yoe + yoe / 4 - yoe / 100)) := by
  have hint : ∀ {x : ℤ}, -200000 ≤ x → x ≤ 200000 → intResult x = .ok x := by
    intro x hlo hhi
    apply intResult_ok
    unfold InInt
    omega
  have hsum : 0 ≤ doe - doe / 1460 + doe / 36524 - doe / 146096 := by omega
  have hyoe0 : 0 ≤ (doe - doe / 1460 + doe / 36524 - doe / 146096) / 365 := by omega
  have hyoe : (doe - doe / 1460 + doe / 36524 - doe / 146096) / 365 ≤ 400 := by omega
  unfold splitYear
  simp only [Int.tdiv_eq_ediv_of_nonneg h0]
  rw [hint (by omega) (by omega), ok_bind, hint (by omega) (by omega), ok_bind,
    hint (by omega) (by omega), ok_bind, Int.tdiv_eq_ediv_of_nonneg hsum]
  clear hsum
  generalize (doe - doe / 1460 + doe / 36524 - doe / 146096) / 365 = yoe at hyoe0 hyoe ⊢
  simp only [Int.tdiv_eq_ediv_of_nonneg hyoe0]
  rw [hint (by omega) (by omega), ok_bind,
    hint (by omega) (by omega), ok_bind, hint (by omega) (by omega), ok_bind,
    hint (by omega) (by omega), ok_bind]

theorem splitYear_ok (h0 : 0 ≤ doe) (h : doe < 146097) :
    ∃ yoe doy, splitYear doe = .ok (yoe, doy) ∧ 0 ≤ yoe ∧ yoe ≤ 399 ∧ 0 ≤ doy ∧ doy ≤ 365 ∧
      doe = 365 * yoe + yoe / 4 - yoe / 100 + doy ∧ (doy = 365 → LeapYear (yoe + 1)) := by
  obtain ⟨p, q, r, u, hdoe, hp, hp3, hq, hq24, hr, hr3, hu, hu365, hleap⟩ := exists_year h0 h
  have hyoe := yoe_eq hp hp3 hq hq24 hr hr3 hu hu365 hleap hdoe
  have hrun := splitYear_run h0 h
  simp only [hyoe] at hrun
  clear hyoe
  have hfour : (100 * p + 4 * q + r) / 4 = 25 * p + q := by omega
  have hcentury : (100 * p + 4 * q + r) / 100 = p := by omega
  have hdoy : doe - (365 * (100 * p + 4 * q + r) + (25 * p + q) - p) = u := by omega
  rw [hfour, hcentury, hdoy] at hrun
  refine ⟨_, _, hrun, by omega, by omega, hu, hu365, ?_, fun h365 => ?_⟩
  · rw [hfour, hcentury]
    omega
  · obtain ⟨rfl, hlast⟩ := hleap h365
    unfold LeapYear
    omega

theorem splitMonth_ok (h0 : 0 ≤ doy) (h : doy ≤ 365) :
    ∃ mp d, splitMonth doy = .ok (mp, d) ∧ 0 ≤ mp ∧ mp ≤ 11 ∧ 1 ≤ d ∧
      doy = (153 * mp + 2) / 5 + (d - 1) ∧ doy < (153 * (mp + 1) + 2) / 5 := by
  refine ⟨(5 * doy + 2) / 153, doy - (153 * ((5 * doy + 2) / 153) + 2) / 5 + 1, ?_, by omega,
    by omega, by omega, by omega, by omega⟩
  have hint : ∀ {x : ℤ}, -2000 ≤ x → x ≤ 2000 → intResult x = .ok x := by
    intro x hlo hhi
    apply intResult_ok
    unfold InInt
    omega
  unfold splitMonth
  rw [hint (by omega) (by omega), ok_bind, hint (by omega) (by omega), ok_bind]
  simp only
  rw [Int.tdiv_eq_ediv_of_nonneg (by omega), hint (by omega) (by omega), ok_bind,
    hint (by omega) (by omega), ok_bind, Int.tdiv_eq_ediv_of_nonneg (by omega),
    hint (by omega) (by omega),
    ok_bind, hint (by omega) (by omega), ok_bind]

/-- The day is one of its month. -/
theorem day_le {y mp d : ℤ} (hmp : 0 ≤ mp) (hmp11 : mp ≤ 11) (h365 : doy ≤ 365)
    (hdoy : doy = (153 * mp + 2) / 5 + (d - 1)) (hlt : doy < (153 * (mp + 1) + 2) / 5)
    (hleap : doy = 365 → LeapYear (y + 1)) :
    d ≤ daysInMonth (if mp < 10 then y else y + 1) (if mp < 10 then mp + 3 else mp - 9) := by
  have hcases : mp = 0 ∨ mp = 1 ∨ mp = 2 ∨ mp = 3 ∨ mp = 4 ∨ mp = 5 ∨ mp = 6 ∨ mp = 7 ∨ mp = 8 ∨
      mp = 9 ∨ mp = 10 ∨ mp = 11 := by
    omega
  rcases hcases with rfl | rfl | rfl | rfl | rfl | rfl | rfl | rfl | rfl | rfl | rfl | rfl
  case inr.inr.inr.inr.inr.inr.inr.inr.inr.inr.inr =>
    -- the last month of the year is February
    by_cases hyear : LeapYear (y + 1)
    · have heq : daysInMonth (y + 1) 2 = 29 := if_pos hyear
      show d ≤ daysInMonth (y + 1) 2
      omega
    · have heq : daysInMonth (y + 1) 2 = 28 := if_neg hyear
      have hne : doy ≠ 365 := fun h => hyear (hleap h)
      show d ≤ daysInMonth (y + 1) 2
      omega
  all_goals
    norm_num [daysInMonth]
    omega

theorem civilDate_ok (h : -200000000 ≤ days) (h' : days ≤ 200000000) :
    ∃ y mo d, civilDate days = .ok (y, mo, d) ∧ 1 ≤ mo ∧ mo ≤ 12 ∧ 1 ≤ d ∧
      d ≤ daysInMonth y mo ∧ dayNumber y mo d = days := by
  have hera := @splitEra_ok days (by unfold InLong; omega) (by omega)
  have hdoe0 : 0 ≤ (days + 719468) % 146097 := by omega
  have hdoe1 : (days + 719468) % 146097 < 146097 := by omega
  obtain ⟨yoe, doy, hyear, hyoe, hyoe399, hdoy, hdoy365, hdoe, hleap⟩ := splitYear_ok hdoe0 hdoe1
  obtain ⟨mp, d, hmonth, hmp, hmp11, hd, hmd, hlt⟩ := splitMonth_ok hdoy hdoy365
  set era := (days + 719468) / 146097 with heradef
  have hdays : days + 719468 = 146097 * era + (365 * yoe + yoe / 4 - yoe / 100 + doy) := by omega
  clear hdoe hdoe0 hdoe1
  have hera0 : -2000 ≤ era := by omega
  have hera1 : era ≤ 2000 := by omega
  have hprod : InLong (era * 400) := by
    unfold InLong
    omega
  have hsum : InLong (yoe + era * 400) := by
    unfold InLong
    omega
  have hcast : InInt (yoe + era * 400) := by
    unfold InInt
    omega
  have hmo : InInt (mp + if mp < 10 then 3 else -9) := by
    unfold InInt
    split_ifs <;> omega
  have hnext : nextYear (mp + if mp < 10 then 3 else -9) (yoe + era * 400) =
      .ok (if mp < 10 then yoe + era * 400 else yoe + era * 400 + 1) := by
    unfold nextYear
    by_cases h10 : mp < 10
    · simp only [if_pos h10]
      exact if_neg (by omega)
    · simp only [if_neg h10]
      rw [if_pos (by omega)]
      apply intResult_ok
      unfold InInt
      omega
  refine ⟨if mp < 10 then yoe + era * 400 else yoe + era * 400 + 1,
    if mp < 10 then mp + 3 else mp - 9, d, ?_, ?_, ?_, hd, ?_, ?_⟩
  · unfold civilDate
    rw [hera, ok_bind]
    simp only
    rw [hyear, ok_bind]
    simp only
    rw [longResult_ok hprod, ok_bind, longResult_ok hsum, ok_bind, intCast_of_inInt hcast, hmonth,
      ok_bind]
    simp only
    rw [intResult_ok hmo, ok_bind, hnext, ok_bind]
    split_ifs <;> rfl
  · split_ifs <;> omega
  · split_ifs <;> omega
  · apply day_le hmp hmp11 hdoy365 hmd hlt
    intro h365
    have hyoe1 := hleap h365
    unfold LeapYear at hyoe1 ⊢
    omega
  · have hfour : (yoe + era * 400) / 4 = yoe / 4 + 100 * era := by omega
    have hcentury : (yoe + era * 400) / 100 = yoe / 100 + 4 * era := by omega
    have hwhole : (yoe + era * 400) / 400 = era := by omega
    rw [Gregorian.dayNumber_march hmp hmp11, hfour, hcentury, hwhole]
    omega

/-- The fields of a stamp are those of its moment. -/
theorem stampFields_ok (h : InLong lv) :
    ∃ t, stampFields lv = .ok t ∧ Civil t ∧ instant t = lv := by
  have hsplit := splitMicros_ok h
  unfold InLong at h
  have hsecs := @splitSeconds_ok (lv / 1000000) (by unfold InLong; omega)
  obtain ⟨y, mo, d, hdate, hmo, hmo12, hd, hday, hnumber⟩ :=
    @civilDate_ok (lv / 1000000 / 86400) (by omega) (by omega)
  have hrem0 : 0 ≤ lv / 1000000 % 86400 := by omega
  have hrem1 : lv / 1000000 % 86400 < 86400 := by omega
  refine ⟨⟨y, mo, d, lv / 1000000 % 86400 / 3600, lv / 1000000 % 86400 % 3600 / 60,
    lv / 1000000 % 86400 % 60, lv % 1000000⟩, ?_, ?_, ?_⟩
  · unfold stampFields
    rw [hsplit, ok_bind]
    simp only
    rw [hsecs, ok_bind]
    simp only
    rw [hdate, ok_bind]
    simp only
    simp only [Int.tdiv_eq_ediv_of_nonneg hrem0, Int.tmod_eq_emod_of_nonneg hrem0]
    rw [Int.tdiv_eq_ediv_of_nonneg (by omega)]
  · constructor <;> simp only <;> omega
  · unfold instant
    simp only [hnumber]
    omega

/-- **Stamps are printed as moments of the calendar**, without overflow. -/
theorem csvwWriteStampField_eq (val : BitVec 64) (h : val ≠ stampNull) (nullStr : CString)
    (delim : UInt8) (isLast : Bool) :
    ∃ t, stampFields val.toInt = .ok t ∧ Civil t ∧ instant t = val.toInt ∧
      (∀ t', Civil t' → instant t' = val.toInt → t' = t) ∧
      csvwWriteStampField val nullStr delim isLast =
        .ok (stampText t ++ [if isLast then ascii '\n' else delim]) := by
  obtain ⟨t, hfields, hcivil, hinstant⟩ := stampFields_ok (inLong_toInt val)
  refine ⟨t, hfields, hcivil, hinstant, fun t' hcivil' hinstant' => ?_, ?_⟩
  · exact hcivil'.eq_of_instant hcivil (hinstant'.trans hinstant.symm)
  · unfold csvwWriteStampField
    rw [if_neg h, hfields]
    rfl

/-- The microsecond before 1970. -/
theorem csvwWriteStampField_eq_before :
    ∃ t, stampFields (-1) = .ok t ∧ Civil t ∧ instant t = -1 ∧
      (∀ t', Civil t' → instant t' = -1 → t' = t) ∧
      csvwWriteStampField (BitVec.allOnes 64) ⟨[], by decide⟩ (ascii ',') true =
        .ok (stampText t ++ [ascii '\n']) :=
  csvwWriteStampField_eq (BitVec.allOnes 64) (by decide) ⟨[], by decide⟩ (ascii ',') true

end Lush.Csv
