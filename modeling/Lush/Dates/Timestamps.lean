import Lush.Ints

/-!
# Timestamps

A timestamp is a number of microseconds.  `timestamp-add` and its relatives pass a count and a
multiplier to a compiled function whose arguments are declared `-int-`, that is `intg`: a
`long` where a pointer has 64 bits, and an `int` elsewhere.  For hours and days the count is
multiplied before it is passed.
-/

namespace Lush.Dates

/-! ## Addition -/

/-- What `intg` is. -/
inductive Intg
  | int
  | long
deriving DecidableEq

/-- The values of an `intg`. -/
def Intg.In : Intg → ℤ → Prop
  | .int => InInt
  | .long => InLong

instance (intg : Intg) (x : ℤ) : Decidable (intg.In x) := by
  cases intg
  · exact inferInstanceAs (Decidable (InInt x))
  · exact inferInstanceAs (Decidable (InLong x))

/-- `at_to_dharg` for an argument that is declared `-int-`. -/
def Intg.ofNumber (intg : Intg) (x : ℤ) : Except Fault ℤ :=
  if intg.In x then .ok x else .error (.error "INT expected")

/-- `_td-long-add-scaled`. -/
def tdLongAddScaled (intg : Intg) (base count multiplier : ℤ) : Except Fault ℤ := do
  let count ← intg.ofNumber count
  let multiplier ← intg.ofNumber multiplier
  let scaled ← longResult (count * multiplier)
  longResult (base + scaled)

/-- `timestamp-add`. -/
def timestampAdd (intg : Intg) (micros deltaMicros : ℤ) : Except Fault ℤ :=
  tdLongAddScaled intg micros deltaMicros 1

/-- `timestamp-add-seconds`. -/
def timestampAddSeconds (intg : Intg) (micros n : ℤ) : Except Fault ℤ :=
  tdLongAddScaled intg micros n 1000000

/-- `timestamp-add-minutes`. -/
def timestampAddMinutes (intg : Intg) (micros n : ℤ) : Except Fault ℤ :=
  tdLongAddScaled intg micros n 60000000

/-- `timestamp-add-hours`. -/
def timestampAddHours (intg : Intg) (micros n : ℤ) : Except Fault ℤ :=
  tdLongAddScaled intg micros (n * 3600) 1000000

/-- `timestamp-add-days`. -/
def timestampAddDays (intg : Intg) (micros n : ℤ) : Except Fault ℤ :=
  tdLongAddScaled intg micros (n * 86400) 1000000

/-! ## Truncation -/

/-- `_td-long-truncate`. -/
def tdLongTruncate (base divisor : ℤ) : Except Fault ℤ := do
  let r := base.tmod divisor
  if r < 0 then
    let r ← longResult (r + divisor)
    longResult (base - r)
  else longResult (base - r)

/-- `timestamp-truncate-seconds`. -/
def timestampTruncateSeconds (micros : ℤ) : Except Fault ℤ := tdLongTruncate micros 1000000

/-- `timestamp-truncate-minutes`. -/
def timestampTruncateMinutes (micros : ℤ) : Except Fault ℤ := tdLongTruncate micros 60000000

/-- `timestamp-truncate-hours`. -/
def timestampTruncateHours (micros : ℤ) : Except Fault ℤ := tdLongTruncate micros 3600000000

/-! ## Units -/

/-- The units of time. -/
inductive TimeUnit
  | micro
  | second
  | minute
  | hour
  | day
deriving DecidableEq

namespace TimeUnit

/-- The microseconds of a unit. -/
def micros : TimeUnit → ℤ
  | micro => 1
  | second => 1000000
  | minute => 60000000
  | hour => 3600000000
  | day => 86400000000

/-- What a count is multiplied with before it is passed. -/
def factor : TimeUnit → ℤ
  | micro => 1
  | second => 1
  | minute => 1
  | hour => 3600
  | day => 86400

/-- The function that adds so many units. -/
def add (intg : Intg) : TimeUnit → ℤ → ℤ → Except Fault ℤ
  | micro => timestampAdd intg
  | second => timestampAddSeconds intg
  | minute => timestampAddMinutes intg
  | hour => timestampAddHours intg
  | day => timestampAddDays intg

/-- The function that truncates to a unit, for the units that have one of their own. -/
def truncate : TimeUnit → Option (ℤ → Except Fault ℤ)
  | second => some timestampTruncateSeconds
  | minute => some timestampTruncateMinutes
  | hour => some timestampTruncateHours
  | micro => none
  | day => none

end TimeUnit

/-! ## Exactness -/

/-- The numbers that a Lisp number can be without rounding. -/
def Exactly (x : ℤ) : Prop := -9007199254740992 < x ∧ x < 9007199254740992

instance (x : ℤ) : Decidable (Exactly x) := inferInstanceAs (Decidable (_ ∧ _))

variable {intg : Intg} {base count multiplier t n : ℤ} {u : TimeUnit}

theorem Exactly.inLong {x : ℤ} (h : Exactly x) : InLong x := by
  unfold Exactly at h
  unfold InLong
  omega

/-- A sum is exact when the count can be passed. -/
theorem tdLongAddScaled_eq (hbase : Exactly base) (hmul : InInt multiplier)
    (hprod : Exactly (count * multiplier)) :
    tdLongAddScaled intg base count multiplier =
      if intg.In count then .ok (base + count * multiplier)
      else .error (.error "INT expected") := by
  have hmultiplier : intg.In multiplier := by
    cases intg
    · exact hmul
    · unfold InInt at hmul
      show InLong multiplier
      unfold InLong
      omega
  have hsum : InLong (base + count * multiplier) := by
    unfold Exactly at hbase hprod
    unfold InLong
    omega
  unfold tdLongAddScaled Intg.ofNumber
  rw [if_pos hmultiplier]
  split_ifs
  · rw [ok_bind, ok_bind, longResult_ok hprod.inLong, ok_bind, longResult_ok hsum]
  · rfl

/-- **A unit is added** with the count that is passed for it. -/
theorem TimeUnit.add_eq (ht : Exactly t) (hn : Exactly (n * u.micros)) :
    u.add intg t n =
      if intg.In (n * u.factor) then .ok (t + n * u.micros)
      else .error (.error "INT expected") := by
  cases u with
  | micro =>
      have heq := @tdLongAddScaled_eq intg _ _ _ ht (by decide : InInt 1) hn
      simpa [TimeUnit.add, timestampAdd, factor, micros] using heq
  | second =>
      have heq := @tdLongAddScaled_eq intg _ _ _ ht (by decide : InInt 1000000) hn
      simpa [TimeUnit.add, timestampAddSeconds, factor, micros] using heq
  | minute =>
      have heq := @tdLongAddScaled_eq intg _ _ _ ht (by decide : InInt 60000000) hn
      simpa [TimeUnit.add, timestampAddMinutes, factor, micros] using heq
  | hour =>
      have hprod : n * 3600 * 1000000 = n * hour.micros := mul_assoc _ _ _
      have heq := @tdLongAddScaled_eq intg _ _ _ ht (by decide : InInt 1000000) (hprod ▸ hn)
      rwa [hprod] at heq
  | day =>
      have hprod : n * 86400 * 1000000 = n * day.micros := mul_assoc _ _ _
      have heq := @tdLongAddScaled_eq intg _ _ _ ht (by decide : InInt 1000000) (hprod ▸ hn)
      rwa [hprod] at heq

/-- A count is always passed in a `long`. -/
theorem TimeUnit.in_iff (hn : Exactly (n * u.micros)) :
    intg.In (n * u.factor) ↔ intg = .long ∨ InInt (n * u.factor) := by
  cases intg with
  | int => simp [Intg.In]
  | long =>
      refine iff_of_true ?_ (Or.inl rfl)
      unfold Exactly at hn
      show InLong _
      unfold InLong
      cases u <;> simp only [TimeUnit.factor, TimeUnit.micros] at hn ⊢ <;> omega

/-- **A timestamp is rounded down.** -/
theorem tdLongTruncate_eq {divisor : ℤ} (hd : 0 < divisor) (hd' : divisor < 9007199254740992)
    (hbase : InLong (base - base % divisor)) :
    tdLongTruncate base divisor = .ok (base - base % divisor) := by
  have hpos := Int.emod_nonneg base hd.ne'
  have hlt := Int.emod_lt_of_pos base hd
  have hmod : InLong (base % divisor) := by
    unfold InLong
    omega
  unfold tdLongTruncate
  by_cases hneg : base.tmod divisor < 0
  · simp only [if_pos hneg]
    rw [(floor_of_tmod_neg hd hneg).2, longResult_ok hmod, ok_bind, longResult_ok hbase]
  · simp only [if_neg hneg]
    rw [(floor_of_tmod_nonneg hd hneg).2, longResult_ok hbase]

/-- The function gives the greatest multiple of `d` that is not above its argument. -/
structure RoundsDown (f : ℤ → Except Fault ℤ) (d : ℤ) : Prop where
  greatest : ∀ t, Exactly t → ∃ r, f t = .ok r ∧ r ≤ t ∧ d ∣ r ∧ ∀ m, d ∣ m → m ≤ t → m ≤ r
  monotone : ∀ t t' r r', Exactly t → Exactly t' → t ≤ t' → f t = .ok r → f t' = .ok r' → r ≤ r'
  idempotent : ∀ t r, Exactly t → f t = .ok r → f r = .ok r

theorem tdLongTruncate_roundsDown {d : ℤ} (hd : 0 < d) (hd' : d < 9007199254740992) :
    RoundsDown (fun t => tdLongTruncate t d) d := by
  have heq : ∀ t, -18014398509481984 < t → t < 9007199254740992 →
      tdLongTruncate t d = .ok (t - t % d) := by
    intro t hlo hhi
    have hpos := Int.emod_nonneg t hd.ne'
    have hlt := Int.emod_lt_of_pos t hd
    apply tdLongTruncate_eq hd hd'
    unfold InLong
    omega
  have hgreatest : ∀ t m, d ∣ m → m ≤ t → m ≤ t - t % d := by
    rintro t _ ⟨q, rfl⟩ hle
    have hdiv : q ≤ t / d := (Int.le_ediv_iff_mul_le hd).mpr (by linarith)
    calc d * q ≤ d * (t / d) := mul_le_mul_of_nonneg_left hdiv hd.le
      _ = t - t % d := by rw [Int.emod_def]; ring
  have hdvd : ∀ t, d ∣ t - t % d := fun t => Int.dvd_self_sub_emod
  have hle : ∀ t, t - t % d ≤ t := fun t => by
    have hpos := Int.emod_nonneg t hd.ne'
    omega
  refine ⟨fun t ht => ?_, fun t t' r r' ht ht' htt hr hr' => ?_, fun t r ht hr => ?_⟩
  · exact ⟨_, heq t (by unfold Exactly at ht; omega) ht.2, hle t, hdvd t, hgreatest t⟩
  · rw [heq t (by unfold Exactly at ht; omega) ht.2] at hr
    rw [heq t' (by unfold Exactly at ht'; omega) ht'.2] at hr'
    obtain rfl := Except.ok.inj hr
    obtain rfl := Except.ok.inj hr'
    exact hgreatest t' _ (hdvd t) ((hle t).trans htt)
  · have hlt := Int.emod_lt_of_pos t hd
    have hr' := hle t
    rw [heq t (by unfold Exactly at ht; omega) ht.2] at hr
    obtain rfl := Except.ok.inj hr
    show tdLongTruncate _ d = _
    rw [heq _ (by unfold Exactly at ht; omega) (hr'.trans_lt ht.2),
      Int.emod_eq_zero_of_dvd (hdvd t), sub_zero]

/-- **When timestamps are exact**: truncation always is, and addition when the count that is
passed is an `intg`. -/
theorem timestamps_exact (intg : Intg) :
    (∀ (u : TimeUnit) (t n : ℤ), Exactly t → Exactly (n * u.micros) →
      (u.add intg t n = .ok (t + n * u.micros) ↔ intg = .long ∨ InInt (n * u.factor))) ∧
    ∀ (u : TimeUnit) (f : ℤ → Except Fault ℤ), u.truncate = some f → RoundsDown f u.micros := by
  constructor
  · intro u t n ht hn
    rw [TimeUnit.add_eq ht hn, ← TimeUnit.in_iff hn]
    split_ifs with hin <;> simp [hin]
  · intro u f hf
    cases u with
    | micro => cases hf
    | second =>
        obtain rfl := Option.some.inj hf
        exact tdLongTruncate_roundsDown (by decide) (by decide)
    | minute =>
        obtain rfl := Option.some.inj hf
        exact tdLongTruncate_roundsDown (by decide) (by decide)
    | hour =>
        obtain rfl := Option.some.inj hf
        exact tdLongTruncate_roundsDown (by decide) (by decide)
    | day => cases hf

/-- So many days from 1970 on have more seconds than an `int` has. -/
theorem not_timestamps_exact_days :
    ¬ ∀ t n : ℤ, Exactly t → InInt n → Exactly (n * TimeUnit.day.micros) →
      timestampAddDays .int t n = .ok (t + n * TimeUnit.day.micros) := by
  intro h
  exact absurd (h 0 24856 (by decide) (by decide) (by decide)) (by decide)

end Lush.Dates
