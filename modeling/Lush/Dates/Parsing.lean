import Lush.Dates.Date

/-!
# Reading dates

`new_date_imp` reads the fields of a date one after another.  A field is read into an `int`
whose length is not limited, and the parser is right as long as no field it comes to
overflows (`parses_iff`).
-/

namespace Lush.Dates

open Text

/-! ## The parser -/

/-- The loop over the digits of a field. -/
def readDigits : ℤ → List UInt8 → Except Fault (ℤ × List UInt8)
  | r, [] => .ok (r, [])
  | r, c :: s =>
      if isDigit c then do
        let tens ← intResult (r * 10)
        let sum ← intResult (tens + c.toNat)
        let r ← intResult (sum - 48)
        readDigits r s
      else .ok (r, c :: s)

/-- The smallest value of a field. -/
def fieldMin : ℕ → ℕ
  | dateYear => 1900
  | dateMonth => 1
  | dateDay => 1
  | _ => 0

/-- The largest value of a field. -/
def fieldMax : ℕ → ℕ
  | dateYear => 1900 + 255
  | dateMonth => 12
  | dateDay => 31
  | dateHour => 23
  | _ => 59

/-- The character `c` that has to follow a field. -/
def fieldSep : ℕ → UInt8
  | dateYear => ascii '-'
  | dateMonth => ascii '-'
  | dateDay => ascii ' '
  | dateHour => ascii ':'
  | dateMinute => ascii ':'
  | _ => ascii ' '

/-- `while (*s==' ') s++`. -/
def skipSpaces (s : List UInt8) : List UInt8 := s.dropWhile fun c => c = ascii ' '

/-- The blanks after the character that follows a field. -/
def skipAfter (i : ℕ) (s : List UInt8) : List UInt8 :=
  if fieldSep i = ascii ' ' then skipSpaces s else s

/-- The loop of `new_date_imp`, for so many fields from `i` on. -/
def newDateLoop (hi : ℕ) :
    ℕ → ℕ → List UInt8 → (ℕ → ℕ) → Except Fault (Option (List UInt8 × (ℕ → ℕ)))
  | 0, _, s, x => .ok (some (s, x))
  | n + 1, i, s, x =>
      if ¬ s.head?.any isDigit then .ok none
      else
        match readDigits 0 s with
        | .error fault => .error fault
        | .ok (r, s) =>
            if r < fieldMin i ∨ fieldMax i < r then .ok none
            else
              let x := Function.update x i (r - base i).toNat
              if i < hi then
                match s with
                | [] => .ok none
                | c :: s =>
                    if c = fieldSep i then newDateLoop hi n (i + 1) (skipAfter i s) x
                    else .ok none
              else newDateLoop hi n (i + 1) (skipAfter i s) x

/-- The tests after the loop. -/
def newDateEnd (lo hi : ℕ) : Option (List UInt8 × (ℕ → ℕ)) → Except Fault (Option Date)
  | none => .ok none
  | some (_ :: _, _) => .ok none
  | some ([], x) => do
      let valid ← dateCheck ⟨lo, hi, x⟩
      return if valid then some ⟨lo, hi, x⟩ else none

/-- `new_date_imp`: a date, or `none` for its result `-1`. -/
def newDateImp (s : List UInt8) (d : Date) (lo hi : ℤ) : Except Fault (Option Date) :=
  if lo < 0 ∨ hi < 0 ∨ lo > dateSecond ∨ hi > dateSecond ∨ lo > hi then
    .error (.error "illegal date range specification")
  else do
    let r ← newDateLoop hi.toNat (hi.toNat + 1 - lo.toNat) lo.toNat (skipSpaces s) d.x
    newDateEnd lo.toNat hi.toNat r

/-! ## The grammar -/

/-- The digits of a field whose value is in its bounds. -/
structure Number (i : ℕ) (ds : List UInt8) : Prop where
  digits : Digits ds
  nonempty : ds ≠ []
  min_le : fieldMin i ≤ digitsValue ds
  le_max : digitsValue ds ≤ fieldMax i

/-- Blanks, which may follow the day and the second. -/
structure Blanks (i : ℕ) (s : List UInt8) : Prop where
  blank : ∀ c ∈ s, c = ascii ' '
  after : s ≠ [] → i = dateDay ∨ i = dateSecond

/-- The fields from `i` to `hi`, with the values `v`, and with the characters between them
that are printed there. -/
inductive Fields (hi : ℕ) (v : ℕ → ℕ) : ℕ → List UInt8 → Prop
  | last {ds blanks : List UInt8} (hnum : Number hi ds) (hv : digitsValue ds = v hi)
      (hblanks : Blanks hi blanks) : Fields hi v hi (ds ++ blanks)
  | more {i : ℕ} {ds blanks s : List UInt8} (hlt : i < hi) (hnum : Number i ds)
      (hv : digitsValue ds = v i) (hblanks : Blanks i blanks) (h : Fields hi v (i + 1) s) :
      Fields hi v i (ds ++ printedSep (i + 1) :: (blanks ++ s))

/-- The string is a date with the fields from `lo` to `hi`. -/
structure DateString (lo hi : ℕ) (v : ℕ → ℕ) (s : List UInt8) : Prop where
  fields : Fields hi v lo (skipSpaces s)
  day : DayValid lo hi v

/-- The parser comes to the string `t`, where a field has to follow. -/
inductive Reaches (hi : ℕ) (t : List UInt8) : ℕ → List UInt8 → Prop
  | here {i : ℕ} : Reaches hi t i t
  | more {i : ℕ} {ds blanks s : List UInt8} (hlt : i < hi) (hnum : Number i ds)
      (hblanks : Blanks i blanks) (h : Reaches hi t (i + 1) s) :
      Reaches hi t i (ds ++ printedSep (i + 1) :: (blanks ++ s))

/-! ## A field -/

variable {hi i n : ℕ} {v x : ℕ → ℕ} {s t ds blanks : List UInt8}

/-- The largest number that is read without an overflow: before `'0'` is subtracted the
number is by 48 larger. -/
def largest : ℕ := 2147483599

theorem le_foldl_digits (r : ℕ) (s : List UInt8) :
    r ≤ s.foldl (fun value c => 10 * value + (c.toNat - 48)) r := by
  induction s generalizing r with
  | nil => exact le_rfl
  | cons c s ih =>
      have hstep : r ≤ 10 * r + (c.toNat - 48) := by omega
      exact hstep.trans (ih _)

/-- The loop reads the digits, unless the number overflows. -/
theorem readDigits_eq {r : ℕ} (hr : r ≤ largest) (s : List UInt8) :
    readDigits r s =
      if (s.takeWhile isDigit).foldl (fun value c => 10 * value + (c.toNat - 48)) r ≤ largest then
        .ok (((s.takeWhile isDigit).foldl (fun value c => 10 * value + (c.toNat - 48)) r : ℕ),
          s.dropWhile isDigit)
      else .error .undefined := by
  induction s generalizing r with
  | nil => simp [readDigits, hr]
  | cons c s ih =>
      by_cases hc : isDigit c = true
      · have hbounds : 48 ≤ c.toNat ∧ c.toNat ≤ 57 := by
          simpa [isDigit, UInt8.le_iff_toNat_le] using hc
        have hle := le_foldl_digits (10 * r + (c.toNat - 48)) (s.takeWhile isDigit)
        rw [readDigits, if_pos hc, List.takeWhile_cons_of_pos hc, List.dropWhile_cons_of_pos hc,
          List.foldl_cons]
        by_cases hsmall : 10 * r + (c.toNat - 48) ≤ largest
        · unfold largest at hsmall hr
          have hnext : (r : ℤ) * 10 + c.toNat - 48 = (10 * r + (c.toNat - 48) : ℕ) := by omega
          rw [intResult_ok ⟨by omega, by omega⟩, ok_bind, intResult_ok ⟨by omega, by omega⟩,
            ok_bind, intResult_ok ⟨by omega, by omega⟩, ok_bind, hnext]
          exact ih hsmall
        · rw [if_neg (by omega)]
          unfold largest at hsmall
          by_cases htens : InInt ((r : ℤ) * 10)
          · have hsum : ¬ InInt ((r : ℤ) * 10 + c.toNat) := by
              unfold InInt
              omega
            rw [intResult_ok htens, ok_bind, intResult_error hsum]
            rfl
          · rw [intResult_error htens]
            rfl
      · rw [readDigits, if_neg hc, List.takeWhile_cons_of_neg hc, List.dropWhile_cons_of_neg hc]
        simp [hr]

/-- A row of digits that is followed by something else. -/
theorem span_digits (hds : Digits ds) (ht : ¬ t.head?.any isDigit) :
    (ds ++ t).takeWhile isDigit = ds ∧ (ds ++ t).dropWhile isDigit = t := by
  rw [List.takeWhile_append_of_pos hds, List.dropWhile_append_of_pos hds]
  cases t with
  | nil => simp
  | cons c t => simp_all

theorem head_digits (hds : Digits ds) (hne : ds ≠ []) (t : List UInt8) :
    (ds ++ t).head?.any isDigit = true := by
  cases ds with
  | nil => exact absurd rfl hne
  | cons c ds => exact hds c List.mem_cons_self

theorem takeWhile_ne_nil : s.takeWhile isDigit ≠ [] ↔ s.head?.any isDigit = true := by
  cases s with
  | nil => simp
  | cons c s =>
      by_cases hc : isDigit c = true
      · simp [hc]
      · simp [hc]

theorem number_takeWhile : Number i (s.takeWhile isDigit) ↔ s.head?.any isDigit = true ∧
    fieldMin i ≤ digitsValue (s.takeWhile isDigit) ∧
    digitsValue (s.takeWhile isDigit) ≤ fieldMax i :=
  ⟨fun h => ⟨takeWhile_ne_nil.mp h.nonempty, h.min_le, h.le_max⟩, fun h =>
    ⟨fun _ hc => List.mem_takeWhile_imp hc, takeWhile_ne_nil.mpr h.1, h.2.1, h.2.2⟩⟩

/-! ## One round of the loop -/

theorem fieldMax_le (i : ℕ) : fieldMax i ≤ largest := by
  unfold fieldMax largest
  split <;> omega

theorem newDateLoop_overflow (h : largest < digitsValue (s.takeWhile isDigit)) :
    newDateLoop hi (n + 1) i s x = .error .undefined := by
  have hne : s.takeWhile isDigit ≠ [] := by
    rintro hnil
    rw [hnil] at h
    exact absurd h (by decide)
  have hread : readDigits 0 s = .error .undefined :=
    (readDigits_eq (Nat.zero_le _) s).trans (if_neg h.not_ge)
  rw [newDateLoop, if_neg (not_not_intro (takeWhile_ne_nil.mp hne)), hread]

theorem readDigits_small (h : digitsValue (s.takeWhile isDigit) ≤ largest) :
    readDigits 0 s = .ok (digitsValue (s.takeWhile isDigit), s.dropWhile isDigit) :=
  (readDigits_eq (Nat.zero_le _) s).trans (if_pos h)

theorem newDateLoop_none (h : digitsValue (s.takeWhile isDigit) ≤ largest)
    (hnot : ¬ Number i (s.takeWhile isDigit)) : newDateLoop hi (n + 1) i s x = .ok none := by
  rw [newDateLoop, readDigits_small h]
  rw [number_takeWhile] at hnot
  by_cases hhead : s.head?.any isDigit = true
  · have hbounds : ¬ (fieldMin i ≤ digitsValue (s.takeWhile isDigit) ∧
        digitsValue (s.takeWhile isDigit) ≤ fieldMax i) := fun h => hnot ⟨hhead, h⟩
    rw [if_neg (not_not_intro hhead)]
    exact if_pos (by omega)
  · exact if_pos hhead

/-- The field is stored. -/
def stored (i : ℕ) (s : List UInt8) (x : ℕ → ℕ) : ℕ → ℕ :=
  Function.update x i (digitsValue (s.takeWhile isDigit) - base i)

theorem newDateLoop_number (hnum : Number i (s.takeWhile isDigit)) :
    newDateLoop hi (n + 1) i s x =
      if i < hi then
        match s.dropWhile isDigit with
        | [] => .ok none
        | c :: t =>
            if c = fieldSep i then newDateLoop hi n (i + 1) (skipAfter i t) (stored i s x)
            else .ok none
      else newDateLoop hi n (i + 1) (skipAfter i (s.dropWhile isDigit)) (stored i s x) := by
  obtain ⟨hhead, hmin, hmax⟩ := number_takeWhile.mp hnum
  have hbounds : ¬ ((digitsValue (s.takeWhile isDigit) : ℤ) < fieldMin i ∨
      (fieldMax i : ℤ) < digitsValue (s.takeWhile isDigit)) := by omega
  have hnat : ((digitsValue (s.takeWhile isDigit) : ℤ) - base i).toNat =
      digitsValue (s.takeWhile isDigit) - base i := by omega
  rw [newDateLoop, readDigits_small (hmax.trans (fieldMax_le i)), if_neg (not_not_intro hhead)]
  simp only [if_neg hbounds, hnat]
  rfl

theorem newDateLoop_more (hnum : Number i (s.takeWhile isDigit)) (hlt : i < hi)
    (hsep : s.dropWhile isDigit = fieldSep i :: t) :
    newDateLoop hi (n + 1) i s x = newDateLoop hi n (i + 1) (skipAfter i t) (stored i s x) := by
  rw [newDateLoop_number hnum, if_pos hlt, hsep]
  exact if_pos rfl

theorem newDateLoop_sep (hnum : Number i (s.takeWhile isDigit)) (hlt : i < hi)
    (hsep : ∀ t, s.dropWhile isDigit ≠ fieldSep i :: t) :
    newDateLoop hi (n + 1) i s x = .ok none := by
  rw [newDateLoop_number hnum, if_pos hlt]
  cases hrest : s.dropWhile isDigit with
  | nil => rfl
  | cons c t =>
      have hne : c ≠ fieldSep i := by
        rintro rfl
        exact hsep t hrest
      exact if_neg hne

theorem newDateLoop_last (hnum : Number hi (s.takeWhile isDigit)) :
    newDateLoop hi 1 hi s x =
      .ok (some (skipAfter hi (s.dropWhile isDigit), stored hi s x)) := by
  rw [newDateLoop_number hnum, if_neg (lt_irrefl hi)]
  rfl

/-! ## The fields one after another -/

theorem fieldSep_eq (hi : i < dateSecond) : fieldSep i = printedSep (i + 1) := by
  have hall : ∀ i < 5, fieldSep i = printedSep (i + 1) := by decide
  exact hall i hi

theorem fieldSep_blank (hi : i ≤ dateSecond) :
    fieldSep i = ascii ' ' ↔ i = dateDay ∨ i = dateSecond := by
  have hall : ∀ i < 6, fieldSep i = ascii ' ' ↔ i = 2 ∨ i = 5 := by decide
  exact hall i (Nat.lt_succ_iff.mpr hi)

theorem not_digit_sep (i : ℕ) : isDigit (printedSep i) = false := by
  unfold printedSep
  split <;> decide

theorem skipSpaces_append (hblank : ∀ c ∈ blanks, c = ascii ' ')
    (hs : s.head? ≠ some (ascii ' ')) : skipSpaces (blanks ++ s) = s := by
  unfold skipSpaces
  rw [List.dropWhile_append_of_pos (by simpa using hblank)]
  cases s with
  | nil => rfl
  | cons c s => exact List.dropWhile_cons_of_neg (by simpa using hs)

/-- The blanks that the parser skips. -/
theorem skipAfter_append (hi : i ≤ dateSecond) (hblanks : Blanks i blanks)
    (hs : s.head? ≠ some (ascii ' ')) : skipAfter i (blanks ++ s) = s := by
  unfold skipAfter
  by_cases hsep : fieldSep i = ascii ' '
  · rw [if_pos hsep, skipSpaces_append hblanks.blank hs]
  · have hnil : blanks = [] := by
      by_contra hne
      exact hsep ((fieldSep_blank hi).mpr (hblanks.after hne))
    rw [if_neg hsep, hnil, List.nil_append]

/-- What the parser skips are blanks. -/
theorem exists_blanks (hi : i ≤ dateSecond) (s : List UInt8) :
    ∃ blanks, Blanks i blanks ∧ s = blanks ++ skipAfter i s := by
  unfold skipAfter
  by_cases hsep : fieldSep i = ascii ' '
  · refine ⟨s.takeWhile fun c => c = ascii ' ', ⟨?_, ?_⟩, ?_⟩
    · intro c hc
      simpa using List.mem_takeWhile_imp hc
    · exact fun _ => (fieldSep_blank hi).mp hsep
    · rw [if_pos hsep]
      exact List.takeWhile_append_dropWhile.symm
  · rw [if_neg hsep]
    exact ⟨[], ⟨by simp, by simp⟩, rfl⟩

/-- A field begins with a digit. -/
theorem Fields.head (h : Fields hi v i s) : s.head?.any isDigit = true := by
  cases h with
  | last hnum => exact head_digits hnum.digits hnum.nonempty _
  | more _ hnum => exact head_digits hnum.digits hnum.nonempty _

theorem head_ne_blank (h : s.head?.any isDigit = true) : s.head? ≠ some (ascii ' ') := by
  intro hblank
  rw [hblank] at h
  exact absurd h (by decide)

theorem Blanks.head (h : Blanks i blanks) : ¬ blanks.head?.any isDigit := by
  cases blanks with
  | nil => simp
  | cons c blanks =>
      have hdigit : ¬ isDigit (ascii ' ') = true := by decide
      rw [h.blank c List.mem_cons_self]
      exact hdigit

theorem head_sep (i : ℕ) (t : List UInt8) : ¬ (printedSep i :: t).head?.any isDigit := by
  simp [not_digit_sep]

/-- The last field, as the parser reads it. -/
theorem fields_last_iff (hhi : hi ≤ dateSecond) : Fields hi v hi s ↔
    Number hi (s.takeWhile isDigit) ∧ digitsValue (s.takeWhile isDigit) = v hi ∧
      skipAfter hi (s.dropWhile isDigit) = [] := by
  constructor
  · intro h
    cases h with
    | last hnum hv hblanks =>
        obtain ⟨htake, hdrop⟩ := span_digits hnum.digits hblanks.head
        rw [htake, hdrop]
        refine ⟨hnum, hv, ?_⟩
        have hskip := skipAfter_append (s := []) hhi hblanks (by simp)
        rwa [List.append_nil] at hskip
    | more hlt => exact absurd hlt (lt_irrefl hi)
  · rintro ⟨hnum, hv, hskip⟩
    obtain ⟨blanks, hblanks, heq⟩ := exists_blanks hhi (s.dropWhile isDigit)
    rw [hskip, List.append_nil] at heq
    rw [← List.takeWhile_append_dropWhile (p := isDigit) (l := s), heq]
    exact .last hnum hv hblanks

/-- A field before the last one, as the parser reads it. -/
theorem fields_more_iff (hlt : i < hi) (hhi : hi ≤ dateSecond) : Fields hi v i s ↔
    Number i (s.takeWhile isDigit) ∧ digitsValue (s.takeWhile isDigit) = v i ∧
      ∃ t, s.dropWhile isDigit = fieldSep i :: t ∧ Fields hi v (i + 1) (skipAfter i t) := by
  have hi5 : i < dateSecond := hlt.trans_le hhi
  constructor
  · intro h
    cases h with
    | last => exact absurd hlt (lt_irrefl hi)
    | more _ hnum hv hblanks h =>
        obtain ⟨htake, hdrop⟩ := span_digits hnum.digits (head_sep (i + 1) _)
        rw [htake, hdrop]
        refine ⟨hnum, hv, _, by rw [fieldSep_eq hi5], ?_⟩
        rwa [skipAfter_append hi5.le hblanks (head_ne_blank h.head)]
  · rintro ⟨hnum, hv, t, hsep, h⟩
    obtain ⟨blanks, hblanks, heq⟩ := exists_blanks hi5.le t
    rw [← List.takeWhile_append_dropWhile (p := isDigit) (l := s), hsep, fieldSep_eq hi5, heq]
    exact .more hlt hnum hv hblanks h

/-! ## The loop -/

theorem Fields.bounds (h : Fields hi v i s) {j : ℕ} (hij : i ≤ j) (hj : j ≤ hi) :
    fieldMin j ≤ v j ∧ v j ≤ fieldMax j := by
  induction h with
  | last hnum hv _ =>
      obtain rfl := le_antisymm hij hj
      exact hv ▸ ⟨hnum.min_le, hnum.le_max⟩
  | more _ hnum hv _ _ ih =>
      rcases hij.eq_or_lt with rfl | hij
      · exact hv ▸ ⟨hnum.min_le, hnum.le_max⟩
      · exact ih hij

theorem Fields.le (h : Fields hi v i s) : i ≤ hi := by
  cases h with
  | last => exact le_rfl
  | more hlt => exact hlt.le

theorem Fields.congr {v' : ℕ → ℕ} (h : Fields hi v i s) (heq : ∀ j, i ≤ j → v j = v' j) :
    Fields hi v' i s := by
  induction h with
  | last hnum hv hblanks => exact .last hnum (hv.trans (heq _ le_rfl)) hblanks
  | more hlt hnum hv hblanks _ ih =>
      exact .more hlt hnum (hv.trans (heq _ le_rfl)) hblanks
        (ih fun j hj => heq j (Nat.le_of_succ_le hj))

theorem base_le (i : ℕ) : base i ≤ fieldMin i := by
  unfold base
  split_ifs with hi
  · rw [hi]
    decide
  · exact Nat.zero_le _

theorem stored_add_base (hnum : Number i (s.takeWhile isDigit)) :
    stored i s x i + base i = digitsValue (s.takeWhile isDigit) := by
  have hbase := (base_le i).trans hnum.min_le
  rw [stored, Function.update_self]
  omega

/-- The fields of a date are stored. -/
theorem newDateLoop_fields (hhi : hi ≤ dateSecond) (h : Fields hi v i s)
    (hn : hi + 1 = i + n) :
    ∃ x', newDateLoop hi n i s x = .ok (some ([], x')) ∧ (∀ j < i, x' j = x j) ∧
      ∀ j, i ≤ j → j ≤ hi → x' j + base j = v j := by
  induction n generalizing i s x with
  | zero =>
      have hle := h.le
      omega
  | succ n ih =>
      rcases h.le.eq_or_lt with rfl | hlt
      · obtain ⟨hnum, hv, hskip⟩ := (fields_last_iff hhi).mp h
        obtain rfl : n = 0 := by omega
        refine ⟨stored i s x, by rw [newDateLoop_last hnum, hskip], ?_, ?_⟩
        · exact fun j hj => Function.update_of_ne hj.ne _ _
        · intro j hij hji
          obtain rfl := le_antisymm hij hji
          rw [stored_add_base hnum, hv]
      · obtain ⟨hnum, hv, t, hsep, hrest⟩ := (fields_more_iff hlt hhi).mp h
        obtain ⟨x', hloop, hold, hnew⟩ := ih (x := stored i s x) hrest (by omega)
        refine ⟨x', by rw [newDateLoop_more hnum hlt hsep, hloop], ?_, ?_⟩
        · intro j hj
          rw [hold j (hj.trans (Nat.lt_succ_self i))]
          exact Function.update_of_ne hj.ne _ _
        · intro j hij hj
          rcases hij.eq_or_lt with rfl | hij
          · rw [hold i (Nat.lt_succ_self i), stored_add_base hnum, hv]
          · exact hnew j hij hj

/-- What the loop reads to the end are the fields of a date. -/
theorem fields_of_newDateLoop {x' : ℕ → ℕ} (hhi : hi ≤ dateSecond) (hi' : i ≤ hi)
    (hn : hi + 1 = i + n) (h : newDateLoop hi n i s x = .ok (some ([], x'))) :
    Fields hi (fun j => x' j + base j) i s ∧ ∀ j < i, x' j = x j := by
  induction n generalizing i s x with
  | zero => omega
  | succ n ih =>
      have hsmall : digitsValue (s.takeWhile isDigit) ≤ largest := by
        by_contra hlarge
        rw [newDateLoop_overflow (not_le.mp hlarge)] at h
        cases h
      have hnum : Number i (s.takeWhile isDigit) := by
        by_contra hnot
        rw [newDateLoop_none hsmall hnot] at h
        cases h
      rcases hi'.eq_or_lt with rfl | hlt
      · obtain rfl : n = 0 := by omega
        rw [newDateLoop_last hnum] at h
        simp only [Except.ok.injEq, Option.some.injEq, Prod.mk.injEq] at h
        obtain ⟨hskip, rfl⟩ := h
        refine ⟨(fields_last_iff hhi).mpr ⟨hnum, (stored_add_base hnum).symm, hskip⟩, ?_⟩
        exact fun j hj => Function.update_of_ne hj.ne _ _
      · obtain ⟨t, hsep⟩ : ∃ t, s.dropWhile isDigit = fieldSep i :: t := by
          by_contra hno
          rw [newDateLoop_sep hnum hlt (not_exists.mp hno)] at h
          cases h
        rw [newDateLoop_more hnum hlt hsep] at h
        obtain ⟨hfields, hold⟩ := ih hlt (by omega) h
        refine ⟨(fields_more_iff hlt hhi).mpr ⟨hnum, ?_, t, hsep, hfields⟩, ?_⟩
        · rw [hold i (Nat.lt_succ_self i), stored_add_base hnum]
        · intro j hj
          rw [hold j (hj.trans (Nat.lt_succ_self i))]
          exact Function.update_of_ne hj.ne _ _

/-- Nothing overflows if no field that the parser comes to does. -/
theorem newDateLoop_ok (hhi : hi ≤ dateSecond) (hi' : i ≤ hi) (hn : hi + 1 = i + n)
    (hsmall : ∀ t, Reaches hi t i s → digitsValue (t.takeWhile isDigit) ≤ largest) :
    ∃ r, newDateLoop hi n i s x = .ok r := by
  induction n generalizing i s x with
  | zero => omega
  | succ n ih =>
      by_cases hnum : Number i (s.takeWhile isDigit)
      · rcases hi'.eq_or_lt with rfl | hlt
        · obtain rfl : n = 0 := by omega
          exact ⟨_, newDateLoop_last hnum⟩
        · by_cases hsep : ∃ t, s.dropWhile isDigit = fieldSep i :: t
          · obtain ⟨t, hsep⟩ := hsep
            have hi5 : i < dateSecond := hlt.trans_le hhi
            obtain ⟨blanks, hblanks, heq⟩ := exists_blanks hi5.le t
            rw [newDateLoop_more hnum hlt hsep]
            refine ih hlt (by omega) fun u hu => hsmall u ?_
            rw [← List.takeWhile_append_dropWhile (p := isDigit) (l := s), hsep, fieldSep_eq hi5,
              heq]
            exact .more hlt hnum hblanks hu
          · exact ⟨none, newDateLoop_sep hnum hlt (not_exists.mp hsep)⟩
      · exact ⟨none, newDateLoop_none (hsmall s .here) hnum⟩

theorem Reaches.head (h : Reaches hi t i s) (ht : largest < digitsValue (t.takeWhile isDigit)) :
    s.head?.any isDigit = true := by
  cases h with
  | here =>
      apply takeWhile_ne_nil.mp
      intro hnil
      rw [hnil] at ht
      exact absurd ht (by decide)
  | more _ hnum => exact head_digits hnum.digits hnum.nonempty _

/-- A field that the parser comes to overflows. -/
theorem newDateLoop_reaches (hhi : hi ≤ dateSecond) (hi' : i ≤ hi) (hn : hi + 1 = i + n)
    (h : Reaches hi t i s) (ht : largest < digitsValue (t.takeWhile isDigit)) :
    newDateLoop hi n i s x = .error .undefined := by
  induction h generalizing n x with
  | here =>
      obtain ⟨n, rfl⟩ : ∃ k, n = k + 1 := ⟨n - 1, by omega⟩
      exact newDateLoop_overflow ht
  | @more i ds blanks s hlt hnum hblanks h ih =>
      obtain ⟨n, rfl⟩ : ∃ k, n = k + 1 := ⟨n - 1, by omega⟩
      have hi5 : i < dateSecond := hlt.trans_le hhi
      obtain ⟨htake, hdrop⟩ := span_digits hnum.digits (head_sep (i + 1) (blanks ++ s))
      rw [← htake] at hnum
      rw [← fieldSep_eq hi5] at hnum hdrop ⊢
      rw [newDateLoop_more hnum hlt hdrop,
        skipAfter_append hi5.le hblanks (head_ne_blank (h.head ht))]
      exact ih hlt (by omega)

/-! ## Dates -/

/-- `new_date_imp` accepts the dates with the fields from `lo` to `hi`, and stores their
values. -/
def Parses (s : List UInt8) (d : Date) (lo hi : ℕ) : Prop :=
  ∃ r, newDateImp s d lo hi = .ok r ∧ (r.isSome ↔ ∃ v, DateString lo hi v s) ∧
    ∀ d' ∈ r, d'.dfrom = lo ∧ d'.dto = hi ∧
      ∀ v, DateString lo hi v s → ∀ i, lo ≤ i → i ≤ hi → d'.x i + base i = v i

variable {lo : ℕ} {d : Date}

/-- `new_date_imp` for a legal range. -/
theorem newDateImp_eq (hlo : lo ≤ hi) (hhi : hi ≤ dateSecond) (s : List UInt8) (d : Date) :
    newDateImp s d lo hi =
      newDateLoop hi (hi + 1 - lo) lo (skipSpaces s) d.x >>= newDateEnd lo hi := by
  have hrange : ¬ ((lo : ℤ) < 0 ∨ (hi : ℤ) < 0 ∨ (lo : ℤ) > dateSecond ∨ (hi : ℤ) > dateSecond ∨
      (lo : ℤ) > hi) := by
    have hlo' : lo ≤ dateSecond := hlo.trans hhi
    omega
  rw [newDateImp, if_neg hrange]
  rfl

theorem DayValid.congr {v v' : ℕ → ℕ} (h : DayValid lo hi v)
    (heq : ∀ i, lo ≤ i → i ≤ hi → v i = v' i) : DayValid lo hi v' := by
  intro hlo hhi
  obtain ⟨year, hyear, hday⟩ := h hlo hhi
  have hmonth : dateMonth ≤ hi := le_trans (by decide) hhi
  refine ⟨year, fun hzero => ?_, ?_⟩
  · rw [hyear hzero]
    exact heq dateYear hzero.le (Nat.zero_le _)
  · rwa [← heq dateDay (hlo.trans (by decide)) hhi, ← heq dateMonth hlo hmonth]

/-- A string that the loop reads to its end. -/
theorem newDateEnd_fields {x' : ℕ → ℕ} (h : Fields hi (fun i => x' i + base i) lo s) :
    ∃ b, newDateEnd lo hi (some ([], x')) = .ok (if b then some ⟨lo, hi, x'⟩ else none) ∧
      (b = true ↔ DayValid lo hi fun i => x' i + base i) := by
  have hmonth : lo ≤ dateMonth → dateDay ≤ hi → 1 ≤ x' dateMonth ∧ x' dateMonth ≤ 12 :=
    fun hlo hhi => h.bounds hlo (le_trans (by decide) hhi)
  obtain ⟨b, hcheck, hb⟩ := dateCheck_eq ⟨lo, hi, x'⟩ hmonth
  exact ⟨b, by rw [newDateEnd, hcheck]; rfl, hb⟩

/-- The parser accepts exactly the grammar as long as no field it comes to overflows. -/
theorem parses_iff (s : List UInt8) (d : Date) (hlo : lo ≤ hi) (hhi : hi ≤ dateSecond) :
    Parses s d lo hi ↔
      ∀ t, Reaches hi t lo (skipSpaces s) → digitsValue (t.takeWhile isDigit) ≤ largest := by
  have hn : hi + 1 = lo + (hi + 1 - lo) := by omega
  unfold Parses
  rw [newDateImp_eq hlo hhi]
  constructor
  · rintro ⟨r, himp, -⟩ t ht
    by_contra hlarge
    rw [newDateLoop_reaches hhi hlo hn ht (not_le.mp hlarge)] at himp
    cases himp
  · intro hsmall
    obtain ⟨r, hloop⟩ := newDateLoop_ok (x := d.x) hhi hlo hn hsmall
    rw [hloop, ok_bind]
    -- a date is read to the end
    have hread : ∀ v, DateString lo hi v s → ∃ x', r = some ([], x') ∧
        ∀ j, lo ≤ j → j ≤ hi → x' j + base j = v j := by
      intro v hv
      obtain ⟨x', hx, -, hstored⟩ := newDateLoop_fields (x := d.x) hhi hv.fields hn
      rw [hloop] at hx
      exact ⟨x', Except.ok.inj hx, hstored⟩
    by_cases hend : ∃ x', r = some ([], x')
    · obtain ⟨x', rfl⟩ := hend
      obtain ⟨hfields, -⟩ := fields_of_newDateLoop hhi hlo hn hloop
      obtain ⟨b, hcheck, hb⟩ := newDateEnd_fields hfields
      refine ⟨_, hcheck, ?_, ?_⟩
      · cases b with
        | true => exact iff_of_true rfl ⟨_, hfields, hb.mp rfl⟩
        | false =>
            refine iff_of_false Bool.false_ne_true ?_
            rintro ⟨v, hv⟩
            obtain ⟨x, hx, hstored⟩ := hread v hv
            cases hx
            exact Bool.false_ne_true
              (hb.mpr (hv.day.congr fun i hli hih => (hstored i hli hih).symm))
      · intro d' hd'
        cases b with
        | false => cases hd'
        | true =>
            cases hd'
            refine ⟨rfl, rfl, fun v hv => ?_⟩
            obtain ⟨x, hx, hstored⟩ := hread v hv
            cases hx
            exact hstored
    · have hno : ¬ ∃ v, DateString lo hi v s := by
        rintro ⟨v, hv⟩
        obtain ⟨x', hx, -⟩ := hread v hv
        exact hend ⟨x', hx⟩
      have hnone : newDateEnd lo hi r = .ok none := by
        match r, hend with
        | none, _ => rfl
        | some (c :: _, _), _ => rfl
        | some ([], x), hend => exact absurd ⟨x, rfl⟩ hend
      exact ⟨none, hnone, iff_of_false Bool.false_ne_true hno, fun d' hd' => by cases hd'⟩

/-- The 29th of February 2024. -/
theorem parses_iff_leapDay :
    Parses ("2024-02-29".toList.map ascii) ⟨0, 0, fun _ => 0⟩ dateYear dateDay ↔
      ∀ t, Reaches dateDay t dateYear (skipSpaces ("2024-02-29".toList.map ascii)) →
        digitsValue (t.takeWhile isDigit) ≤ largest :=
  parses_iff _ _ (by decide) (by decide)

/-- A year whose number is 2000 after it has overflowed. -/
theorem not_parses_wrapped :
    ¬ Parses ("4294969296".toList.map ascii) ⟨0, 0, fun _ => 0⟩ dateYear dateYear := by
  rintro ⟨r, himp, -⟩
  have hundefined : newDateImp ("4294969296".toList.map ascii) ⟨0, 0, fun _ => 0⟩ dateYear dateYear
      = .error .undefined := rfl
  rw [hundefined] at himp
  cases himp

/-! ## Printed dates -/

/-- A date as the parser makes it. -/
structure Legal (d : Date) : Prop where
  le : d.dfrom ≤ d.dto
  le_second : d.dto ≤ dateSecond
  bounds : ∀ i, d.dfrom ≤ i → i ≤ d.dto → fieldMin i ≤ d.x i + base i ∧ d.x i + base i ≤ fieldMax i
  day : DayValid d.dfrom d.dto fun i => d.x i + base i

theorem digitsValue_padded (width n : ℕ) : digitsValue (padded width n) = n := by
  unfold padded digitsValue
  rw [List.foldl_append]
  have hzeros : ∀ k, (List.replicate k (ascii '0')).foldl
      (fun value c => 10 * value + (c.toNat - 48)) 0 = 0 := by
    intro k
    induction k with
    | zero => rfl
    | succ k ih => exact ih
  rw [hzeros]
  exact digitsValue_decimal n

theorem digits_padded (width n : ℕ) : Digits (padded width n) ∧ padded width n ≠ [] := by
  obtain ⟨hne, hdigits⟩ := decimal_digits n
  refine ⟨?_, by simp [padded, hne]⟩
  intro c hc
  rcases List.mem_append.mp hc with hc | hc
  · rw [List.eq_of_mem_replicate hc]
    decide
  · exact hdigits c hc

theorem number_printedField {k : ℕ} (hmin : fieldMin i ≤ k + base i)
    (hmax : k + base i ≤ fieldMax i) :
    Number i (printedField i k) ∧ digitsValue (printedField i k) = k + base i := by
  have hfield : ∃ width, printedField i k = padded width (k + base i) := by
    unfold printedField base
    split_ifs
    · exact ⟨4, by rw [add_comm]⟩
    · exact ⟨2, rfl⟩
  obtain ⟨width, heq⟩ := hfield
  obtain ⟨hdigits, hne⟩ := digits_padded width (k + base i)
  have hvalue := digitsValue_padded width (k + base i)
  rw [heq]
  exact ⟨⟨hdigits, hne, hvalue.symm ▸ hmin, hvalue.symm ▸ hmax⟩, hvalue⟩

/-- The fields from `i` on are printed, after the character that separates them from the
field before. -/
theorem Legal.strDateLoop (h : Legal d) (hi : d.dfrom ≤ i) (hn : d.dto = i + n) :
    ∃ body, Fields d.dto (fun i => d.x i + base i) i body ∧
      Dates.strDateLoop d (n + 1) i = if i = d.dfrom then body else printedSep i :: body := by
  induction n generalizing i with
  | zero =>
      obtain ⟨hmin, hmax⟩ := h.bounds i hi (by omega)
      obtain ⟨hnum, hv⟩ := number_printedField hmin hmax
      obtain rfl : d.dto = i := hn
      refine ⟨_, .last hnum hv ⟨by simp, fun hne => absurd rfl hne⟩, ?_⟩
      simp only [Dates.strDateLoop, List.append_nil]
  | succ n ih =>
      obtain ⟨hmin, hmax⟩ := h.bounds i hi (by omega)
      obtain ⟨hnum, hv⟩ := number_printedField hmin hmax
      obtain ⟨body, hbody, heq⟩ := ih (i := i + 1) (by omega) (by omega)
      rw [if_neg (by omega)] at heq
      refine ⟨_, .more (by omega) hnum hv ⟨by simp, fun hne => absurd rfl hne⟩ hbody, ?_⟩
      rw [Dates.strDateLoop, heq, List.nil_append]
      split_ifs <;> rfl

theorem Fields.skipSpaces (h : Fields hi v i s) : Dates.skipSpaces s = s := by
  have hnone : ∀ c ∈ ([] : List UInt8), c = ascii ' ' := by simp
  exact skipSpaces_append hnone (head_ne_blank h.head)

/-- A date that is printed and read again is the same. -/
theorem newDateImp_strDateImp (h : Legal d) (buf : Date) :
    ∃ d', newDateImp (strDateImp d) buf d.dfrom d.dto = .ok (some d') ∧
      d'.dfrom = d.dfrom ∧ d'.dto = d.dto ∧
        ∀ i, d.dfrom ≤ i → i ≤ d.dto → d'.x i = d.x i := by
  have hle := h.le
  obtain ⟨body, hbody, heq⟩ := h.strDateLoop (n := d.dto - d.dfrom) le_rfl (by omega)
  rw [if_pos rfl, show d.dto - d.dfrom + 1 = d.dto + 1 - d.dfrom by omega] at heq
  obtain ⟨x', hloop, -, hstored⟩ := newDateLoop_fields (x := buf.x)
    (n := d.dto + 1 - d.dfrom) h.le_second hbody (by omega)
  have hx : ∀ i, d.dfrom ≤ i → i ≤ d.dto → x' i = d.x i :=
    fun i hlo hhi => Nat.add_right_cancel (hstored i hlo hhi)
  have hfields : Fields d.dto (fun i => x' i + base i) d.dfrom body :=
    (fields_of_newDateLoop h.le_second hle (by omega) hloop).1
  obtain ⟨b, hcheck, hb⟩ := newDateEnd_fields hfields
  have htrue : b = true := hb.mpr (h.day.congr fun i hlo hhi => by rw [hx i hlo hhi])
  refine ⟨⟨d.dfrom, d.dto, x'⟩, ?_, rfl, rfl, hx⟩
  rw [newDateImp_eq hle h.le_second, strDateImp, heq, hbody.skipSpaces, hloop, ok_bind, hcheck,
    htrue]
  rfl

end Lush.Dates
