import Lush.Ints
import Lush.Text.NumberSyntax

/-!
# Dates

A date has the fields from `dfrom` to `dto`, out of the year, month, day, hour, minute and
second.  The year is stored less 1900, and each field in an `unsigned char`.
-/

namespace Lush.Dates

open Text

/-! ## The fields -/

@[match_pattern] abbrev dateYear : ℕ := 0
@[match_pattern] abbrev dateMonth : ℕ := 1
@[match_pattern] abbrev dateDay : ℕ := 2
@[match_pattern] abbrev dateHour : ℕ := 3
@[match_pattern] abbrev dateMinute : ℕ := 4
@[match_pattern] abbrev dateSecond : ℕ := 5

/-- `struct date`. -/
structure Date where
  dfrom : ℕ
  dto : ℕ
  x : ℕ → ℕ

/-- The length of each month, and that of February in a leap year. -/
def mlen : List ℕ := [31, 29, 31, 30, 31, 30, 31, 31, 30, 31, 30, 31]

/-- `mlen[m-1]`. -/
def mlenAt : ℕ → Except Fault ℕ
  | 0 => .error .undefined
  | k + 1 =>
      match mlen[k]? with
      | none => .error .undefined
      | some days => .ok days

/-- The test for a leap year, of a year that is stored. -/
def Leap (y : ℕ) : Prop := y % 4 = 0 ∧ (y % 100 ≠ 0 ∨ y % 400 = 100)

instance (y : ℕ) : Decidable (Leap y) := inferInstanceAs (Decidable (_ ∧ _))

/-- The second half of `date_check`: there is no 29th of February in other years. -/
def yearCheck (dt : Date) (m : ℕ) : Bool :=
  ¬ (dt.dfrom ≤ dateYear ∧ m = 2 ∧ dt.x dateDay = 29 ∧ ¬ Leap (dt.x dateYear))

/-- `date_check`. -/
def dateCheck (dt : Date) : Except Fault Bool :=
  if dt.dfrom ≤ dateDay ∧ dateDay ≤ dt.dto then
    if dt.dfrom ≤ dateMonth then
      match mlenAt (dt.x dateMonth) with
      | .error fault => .error fault
      | .ok days => .ok (dt.x dateDay ≤ days && yearCheck dt (dt.x dateMonth))
    else .ok (yearCheck dt 1)
  else .ok true

/-! ## The printer -/

/-- `%0`*width*`d`. -/
def padded (width n : ℕ) : List UInt8 :=
  List.replicate (width - (decimal n).length) (ascii '0') ++ decimal n

/-- The character that is printed before a field. -/
def printedSep : ℕ → UInt8
  | dateYear => ascii ' '
  | dateMonth => ascii '-'
  | dateDay => ascii '-'
  | dateHour => ascii ' '
  | _ => ascii ':'

/-- A field as it is printed, without the character before it. -/
def printedField (i v : ℕ) : List UInt8 :=
  if i = dateYear then padded 4 (1900 + v) else padded 2 v

/-- The loop of `str_date_imp`, for so many fields from `i` on. -/
def strDateLoop (d : Date) : ℕ → ℕ → List UInt8
  | 0, _ => []
  | n + 1, i =>
      (if i = d.dfrom then printedField i (d.x i) else printedSep i :: printedField i (d.x i)) ++
        strDateLoop d n (i + 1)

/-- `str_date_imp`. -/
def strDateImp (d : Date) : List UInt8 := strDateLoop d (d.dto + 1 - d.dfrom) d.dfrom

/-! ## The calendar -/

/-- A leap year. -/
def LeapYear (year : ℕ) : Prop := 4 ∣ year ∧ (¬ 100 ∣ year ∨ 400 ∣ year)

instance (year : ℕ) : Decidable (LeapYear year) := inferInstanceAs (Decidable (_ ∧ _))

/-- The number of days of a month. -/
def daysInMonth (year month : ℕ) : ℕ :=
  if month = 2 then if LeapYear year then 29 else 28
  else if month = 4 ∨ month = 6 ∨ month = 9 ∨ month = 11 then 30
  else 31

theorem leap_iff (y : ℕ) : Leap y ↔ LeapYear (1900 + y) := by
  unfold Leap LeapYear
  omega

theorem daysInMonth_pos (year month : ℕ) : 28 ≤ daysInMonth year month := by
  unfold daysInMonth
  split_ifs <;> omega

theorem daysInMonth_le (year month : ℕ) : daysInMonth year month ≤ 31 := by
  unfold daysInMonth
  split_ifs <;> omega

/-- The table has the lengths of the months of a leap year. -/
theorem mlenAt_eq {m : ℕ} (h1 : 1 ≤ m) (h12 : m ≤ 12) : mlenAt m = .ok (daysInMonth 2000 m) := by
  have hall : ∀ k < 12, mlenAt (k + 1) = .ok (daysInMonth 2000 (k + 1)) := by decide
  obtain ⟨k, rfl⟩ := Nat.exists_eq_add_of_le' h1
  exact hall k (by omega)

theorem daysInMonth_le_leap (year m : ℕ) : daysInMonth year m ≤ daysInMonth 2000 m := by
  have hleap : LeapYear 2000 := by decide
  unfold daysInMonth
  rw [if_pos hleap]
  split_ifs <;> omega

/-- The day is one of the month, in the year if there is one. -/
def DayValid (lo hi : ℕ) (v : ℕ → ℕ) : Prop :=
  lo ≤ dateMonth → dateDay ≤ hi →
    ∃ year, (lo = dateYear → year = v dateYear) ∧ v dateDay ≤ daysInMonth year (v dateMonth)

/-- A stored field less what is taken from it. -/
def base (i : ℕ) : ℕ := if i = dateYear then 1900 else 0

/-- The day that a leap year has more. -/
theorem le_daysInMonth_iff (d y m : ℕ) :
    d ≤ daysInMonth (y + 1900) m ↔
      d ≤ daysInMonth 2000 m ∧ ¬ (m = 2 ∧ d = 29 ∧ ¬ Leap y) := by
  have hleap : LeapYear 2000 := by decide
  rw [leap_iff, add_comm 1900 y]
  unfold daysInMonth
  rw [if_pos hleap]
  by_cases hyear : LeapYear (y + 1900)
  · simp [hyear]
  · simp only [hyear, if_false, not_false_eq_true, and_true]
    split_ifs <;> omega

/-- `date_check` finds whether there is such a day. -/
theorem dateCheck_eq (dt : Date) (hmonth : dt.dfrom ≤ dateMonth → dateDay ≤ dt.dto →
      1 ≤ dt.x dateMonth ∧ dt.x dateMonth ≤ 12) :
    ∃ b, dateCheck dt = .ok b ∧
      (b = true ↔ DayValid dt.dfrom dt.dto fun i => dt.x i + base i) := by
  by_cases hrange : dt.dfrom ≤ dateMonth ∧ dateDay ≤ dt.dto
  · obtain ⟨hlo, hhi⟩ := hrange
    obtain ⟨h1, h12⟩ := hmonth hlo hhi
    have hday : dt.dfrom ≤ dateDay ∧ dateDay ≤ dt.dto := ⟨hlo.trans (by decide), hhi⟩
    refine ⟨decide (dt.x dateDay ≤ daysInMonth 2000 (dt.x dateMonth)) &&
      yearCheck dt (dt.x dateMonth), ?_, ?_⟩
    · rw [dateCheck, if_pos hday, if_pos hlo, mlenAt_eq h1 h12]
    · rw [Bool.and_eq_true, decide_eq_true_eq, yearCheck, decide_eq_true_eq]
      have hbase : DayValid dt.dfrom dt.dto (fun i => dt.x i + base i) ↔
          ∃ year, (dt.dfrom = dateYear → year = dt.x dateYear + 1900) ∧
            dt.x dateDay ≤ daysInMonth year (dt.x dateMonth) :=
        ⟨fun h => h hlo hhi, fun h _ _ => h⟩
      rw [hbase]
      rcases Nat.eq_zero_or_pos dt.dfrom with hyear | hyear
      · have hle : dt.dfrom ≤ dateYear := hyear.le
        constructor
        · intro h
          refine ⟨_, fun _ => rfl, (le_daysInMonth_iff _ _ _).mpr ⟨h.1, fun hbad => ?_⟩⟩
          exact h.2 ⟨hle, hbad⟩
        · rintro ⟨year, heq, h⟩
          rw [heq hyear, le_daysInMonth_iff] at h
          exact ⟨h.1, fun hbad => h.2 hbad.2⟩
      · constructor
        · exact fun h => ⟨2000, fun heq => absurd heq hyear.ne', h.1⟩
        · rintro ⟨year, -, h⟩
          exact ⟨h.trans (daysInMonth_le_leap _ _), fun hbad => hyear.not_ge hbad.1⟩
  · -- there is no day, or no month
    have hvalid : DayValid dt.dfrom dt.dto fun i => dt.x i + base i :=
      fun hlo hhi => absurd ⟨hlo, hhi⟩ hrange
    refine ⟨true, ?_, iff_of_true rfl hvalid⟩
    unfold dateCheck
    split_ifs with hday hlo
    · exact absurd ⟨hlo, hday.2⟩ hrange
    · have hyear : ¬ dt.dfrom ≤ dateYear := fun h => hlo (h.trans (by decide))
      simp [yearCheck, hyear]
    · rfl

end Lush.Dates
