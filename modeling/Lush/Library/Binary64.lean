import Mathlib

/-!
# Binary64 numbers

The 64-bit patterns of floating-point numbers, with their magnitudes as rational
numbers.  `encode` rounds to the nearest, and to the even one of two nearest.
Natural numbers below `2 ^ 53` are represented exactly (`magnitude_encode_natCast`).
-/

namespace Lush.Binary64

/-- Rounding to the nearest natural number, ties to even. -/
def roundHalfEven (q : ℚ) : ℕ :=
  let n := ⌊q⌋₊
  let d := q - n
  if d < 1 / 2 ∨ d = 1 / 2 ∧ n % 2 = 0 then n else n + 1

@[simp] theorem roundHalfEven_natCast (n : ℕ) : roundHalfEven n = n := by
  simp [roundHalfEven]

/-- The sign bit. -/
def negative (x : BitVec 64) : Bool := 2 ^ 63 ≤ x.toNat

/-- The exponent field. -/
def exponentField (x : BitVec 64) : ℕ := x.toNat / 2 ^ 52 % 2 ^ 11

/-- The fraction field. -/
def fractionField (x : BitVec 64) : ℕ := x.toNat % 2 ^ 52

/-- The absolute value, when it is finite. -/
def magnitude (x : BitVec 64) : Option ℚ :=
  let e := exponentField x
  let f := fractionField x
  if e = 2047 then none
  else if e = 0 then some (f * 2 ^ (-1074 : ℤ))
  else some ((2 ^ 52 + f) * 2 ^ ((e : ℤ) - 1075))

/-- The pattern of the number nearest to `q`, where `0 ≤ q`, without the sign.  The
fraction carries over into the exponent, and beyond the largest number there is
the infinity. -/
def pattern (q : ℚ) : ℕ :=
  if q = 0 then 0
  else
    let e := max (Int.log 2 q) (-1022)
    min ((e + 1022).toNat * 2 ^ 52 + roundHalfEven (q / 2 ^ (e - 52))) (2047 * 2 ^ 52)

/-- The number nearest to `q`, with a sign. -/
def encode (sign : Bool) (q : ℚ) : BitVec 64 :=
  BitVec.ofNat 64 (pattern q + if sign then 2 ^ 63 else 0)

theorem significand_lt {n : ℕ} (hn : n ≠ 0) (hlt : n < 2 ^ 53) :
    n * 2 ^ (52 - Nat.log 2 n) < 2 ^ 53 := by
  have hlog : Nat.log 2 n ≤ 52 := Nat.lt_succ_iff.mp (Nat.log_lt_of_lt_pow hn hlt)
  calc n * 2 ^ (52 - Nat.log 2 n)
      < 2 ^ (Nat.log 2 n + 1) * 2 ^ (52 - Nat.log 2 n) :=
        Nat.mul_lt_mul_of_pos_right (Nat.lt_pow_succ_log_self (by norm_num) n) (by positivity)
    _ = 2 ^ 53 := by rw [← pow_add]; congr 1; omega

/-- The pattern of a natural number: its digits follow the leading one. -/
theorem pattern_natCast {n : ℕ} (hn : n ≠ 0) (hlt : n < 2 ^ 53) :
    pattern n = (Nat.log 2 n + 1022) * 2 ^ 52 + n * 2 ^ (52 - Nat.log 2 n) := by
  have hlog : Nat.log 2 n ≤ 52 := Nat.lt_succ_iff.mp (Nat.log_lt_of_lt_pow hn hlt)
  have hcast : (n : ℚ) ≠ 0 := Nat.cast_ne_zero.mpr hn
  have hmax : max (Int.log 2 (n : ℚ)) (-1022) = (Nat.log 2 n : ℤ) := by
    rw [Int.log_natCast]
    omega
  have hdiv : (n : ℚ) / 2 ^ ((Nat.log 2 n : ℤ) - 52) = ((n * 2 ^ (52 - Nat.log 2 n) : ℕ) : ℚ) := by
    rw [div_eq_mul_inv, ← zpow_neg, neg_sub, Nat.cast_mul, Nat.cast_pow]
    congr 1
    rw [← zpow_natCast, Nat.cast_sub hlog]
    rfl
  have hnat : ((Nat.log 2 n : ℤ) + 1022).toNat = Nat.log 2 n + 1022 := by omega
  unfold pattern
  rw [if_neg hcast]
  simp only [hmax, hdiv, roundHalfEven_natCast, hnat]
  refine min_eq_left ?_
  calc (Nat.log 2 n + 1022) * 2 ^ 52 + n * 2 ^ (52 - Nat.log 2 n)
      ≤ (Nat.log 2 n + 1022) * 2 ^ 52 + 2 * 2 ^ 52 := Nat.add_le_add_left (significand_lt hn hlt).le _
    _ = (Nat.log 2 n + 1024) * 2 ^ 52 := by ring
    _ ≤ 2047 * 2 ^ 52 := Nat.mul_le_mul_right _ (by omega)

/-- The fields of a pattern that is put together from them. -/
theorem fields_ofNat {e f s : ℕ} (he : e < 2 ^ 11) (hf : f < 2 ^ 52) (hs : s ≤ 1) :
    exponentField (BitVec.ofNat 64 (s * 2 ^ 63 + (e * 2 ^ 52 + f))) = e ∧
      fractionField (BitVec.ofNat 64 (s * 2 ^ 63 + (e * 2 ^ 52 + f))) = f ∧
      negative (BitVec.ofNat 64 (s * 2 ^ 63 + (e * 2 ^ 52 + f))) = decide (s = 1) := by
  unfold exponentField fractionField negative
  rw [BitVec.toNat_ofNat]
  norm_num at he hf ⊢
  refine ⟨by omega, by omega, by omega⟩

/-- The pattern of a natural number, field by field. -/
theorem exists_fraction {n : ℕ} (hn : n ≠ 0) (hlt : n < 2 ^ 53) :
    ∃ f < 2 ^ 52, pattern n = (Nat.log 2 n + 1023) * 2 ^ 52 + f ∧
      n * 2 ^ (52 - Nat.log 2 n) = 2 ^ 52 + f := by
  have hlog : Nat.log 2 n ≤ 52 := Nat.lt_succ_iff.mp (Nat.log_lt_of_lt_pow hn hlt)
  have hlow : 2 ^ 52 ≤ n * 2 ^ (52 - Nat.log 2 n) := by
    calc 2 ^ 52 = 2 ^ Nat.log 2 n * 2 ^ (52 - Nat.log 2 n) := by rw [← pow_add]; congr 1; omega
      _ ≤ n * 2 ^ (52 - Nat.log 2 n) := Nat.mul_le_mul_right _ (Nat.pow_log_le_self 2 hn)
  have hhigh : n * 2 ^ (52 - Nat.log 2 n) < 2 ^ 53 := significand_lt hn hlt
  obtain ⟨f, hf⟩ := Nat.exists_eq_add_of_le hlow
  refine ⟨f, ?_, ?_, hf⟩
  · rw [hf, pow_succ] at hhigh
    omega
  · rw [pattern_natCast hn hlt, hf]
    ring

/-- **Natural numbers below `2 ^ 53` are exact.** -/
theorem magnitude_encode_natCast {n : ℕ} (hlt : n < 2 ^ 53) (sign : Bool) :
    magnitude (encode sign n) = some (n : ℚ) ∧ negative (encode sign n) = sign := by
  obtain ⟨s, hs, hsign, hbit⟩ : ∃ s ≤ 1, decide (s = 1) = sign ∧
      (if sign then 2 ^ 63 else 0 : ℕ) = s * 2 ^ 63 := by
    cases sign
    exacts [⟨0, by simp⟩, ⟨1, by simp⟩]
  rcases eq_or_ne n 0 with rfl | hn
  · have hencode : encode sign (0 : ℕ) = BitVec.ofNat 64 (s * 2 ^ 63 + (0 * 2 ^ 52 + 0)) := by
      rw [encode, hbit]
      simp [pattern]
    obtain ⟨he, hf, hneg⟩ := fields_ofNat (e := 0) (f := 0) (by norm_num) (by norm_num) hs
    rw [hencode, magnitude, he, hf]
    exact ⟨by simp, hneg.trans hsign⟩
  · obtain ⟨f, hf, hpattern, hvalue⟩ := exists_fraction hn hlt
    have hlog : Nat.log 2 n ≤ 52 := Nat.lt_succ_iff.mp (Nat.log_lt_of_lt_pow hn hlt)
    have hencode : encode sign (n : ℕ) =
        BitVec.ofNat 64 (s * 2 ^ 63 + ((Nat.log 2 n + 1023) * 2 ^ 52 + f)) := by
      rw [encode, hbit, hpattern, Nat.add_comm]
    obtain ⟨he, hf', hneg⟩ := fields_ofNat (e := Nat.log 2 n + 1023) (by omega) hf hs
    have hexponent : ((Nat.log 2 n + 1023 : ℕ) : ℤ) - 1075 = -((52 - Nat.log 2 n : ℕ) : ℤ) := by
      omega
    have hcast : (2 : ℚ) ^ 52 + f = n * 2 ^ (52 - Nat.log 2 n) := by exact_mod_cast hvalue.symm
    rw [hencode]
    refine ⟨?_, hneg.trans hsign⟩
    unfold magnitude
    rw [he, hf']
    simp only [if_neg (show ¬Nat.log 2 n + 1023 = 2047 by omega),
      if_neg (show ¬Nat.log 2 n + 1023 = 0 by omega), hexponent, hcast, zpow_neg, zpow_natCast]
    rw [mul_inv_cancel_right₀ (by positivity)]

end Lush.Binary64
