import Lush.Library.Bisection
import Lush.Library.Heapsort
import Lush.Conformal.JackknifePlus

/-!
# Conformal predictive distributions

A `ConformalPredDist` has the sorted residuals of the calibration data.  Its distribution
function counts the residuals with a binary search, and its quantiles round a rank.  The two
form a Galois connection (`quantile_le_iff`).
-/

namespace Lush.Conformal

open Bisection Heapsort

variable {K : Type} [Field K] [LinearOrder K]

/-! ## The code -/

/-- `idx-d1sortup`. -/
def idxD1sortup (n : ℕ) (m : ℕ → K) : ℕ → K := if n > 1 then heapsort id n m else m

/-- `_cp-bsearch`: the first of `n` elements that is greater than `val`. -/
def cpBsearch (arr : ℕ → K) (n : ℕ) (val : K) : ℕ := bisect (fun mid => arr mid ≤ val) 0 n

omit [Field K] in
theorem idxD1sortup_sorted (n : ℕ) (m : ℕ → K) :
    ∀ p q, p ≤ q → q < n → idxD1sortup n m p ≤ idxD1sortup n m q := by
  intro p q hpq hq
  unfold idxD1sortup
  split_ifs with hn
  · exact (heapsort_sorted id n m).1 p q hpq hq
  · obtain rfl : p = q := by omega
    exact le_rfl

variable (K) in
/-- `ConformalPredDist`. -/
structure ConformalPredDist where
  residuals : ℕ → K
  n : ℕ
  sorted : ∀ p q, p ≤ q → q < n → residuals p ≤ residuals q

/-- The constructor `ConformalPredDist`. -/
def conformalPredDist (residVec : List K) : ConformalPredDist K where
  residuals := idxD1sortup residVec.length fun i => residVec.getD i 0
  n := residVec.length
  sorted := idxD1sortup_sorted _ _

namespace ConformalPredDist

variable (d : ConformalPredDist K)

/-- `cdf`. -/
def cdf (yVal predVal : K) : K :=
  let target := yVal - predVal
  let out := cpBsearch d.residuals d.n target
  (out : K) / ((d.n : K) + 1)

/-- `quantile`. -/
def quantile [FloorRing K] (prob predVal : K) : K :=
  let raw := prob * ((d.n : K) + 1)
  let iraw := truncate raw
  let craw := if raw > iraw then iraw + 1 else iraw
  let idx := max 0 (min ((d.n : ℤ) - 1) (craw - 1))
  predVal + d.residuals idx.toNat

variable {d}

omit [Field K] in
/-- The residuals up to a value are an initial segment. -/
theorem initial_le (val : K) : ∀ i j, i ≤ j → j < d.n → decide (d.residuals j ≤ val) = true →
    decide (d.residuals i ≤ val) = true := by
  intro i j hij hj hle
  exact decide_eq_true ((d.sorted i j hij hj).trans (of_decide_eq_true hle))

omit [Field K] in
theorem cpBsearch_le (val : K) : cpBsearch d.residuals d.n val ≤ d.n :=
  (bisect_spec (initial_le val) (Nat.zero_le d.n)).2.1

omit [Field K] in
/-- The search counts the residuals up to a value. -/
theorem lt_cpBsearch_iff {val : K} {i : ℕ} (hi : i < d.n) :
    i < cpBsearch d.residuals d.n val ↔ d.residuals i ≤ val := by
  obtain ⟨-, -, hbelow, habove⟩ := bisect_spec (initial_le val) (Nat.zero_le d.n)
  constructor
  · exact fun hlt => of_decide_eq_true (hbelow i (Nat.zero_le i) hlt)
  · intro hle
    by_contra hge
    exact of_decide_eq_false (habove i (not_lt.mp hge) hi) hle

omit [Field K] in
theorem cpBsearch_mono {val val' : K} (h : val ≤ val') :
    cpBsearch d.residuals d.n val ≤ cpBsearch d.residuals d.n val' := by
  by_contra hlt
  push Not at hlt
  have hn : cpBsearch d.residuals d.n val' < d.n := hlt.trans_le (cpBsearch_le val)
  have hle : d.residuals (cpBsearch d.residuals d.n val') ≤ val' :=
    ((lt_cpBsearch_iff hn).mp hlt).trans h
  exact lt_irrefl _ ((lt_cpBsearch_iff hn).mpr hle)

variable [IsStrictOrderedRing K] {y prob predVal : K}

/-- A greater value has more residuals below it. -/
theorem cdf_mono {y' : K} (h : y ≤ y') : d.cdf y predVal ≤ d.cdf y' predVal := by
  have hcount := @cpBsearch_mono K _ d _ _ (sub_le_sub_right h predVal)
  exact div_le_div_of_nonneg_right (Nat.cast_le.mpr hcount) (by positivity)

/-- A quantile is the residual whose rank is the probability, rounded up. -/
theorem quantile_eq [FloorRing K] (h0 : 0 < prob) (hn : prob * ((d.n : K) + 1) ≤ d.n) :
    d.quantile prob predVal = predVal + d.residuals (⌈prob * ((d.n : K) + 1)⌉₊ - 1) := by
  have hraw : 0 ≤ prob * ((d.n : K) + 1) := by positivity
  have hceil : (⌈prob * ((d.n : K) + 1)⌉₊ : ℤ) = ⌈prob * ((d.n : K) + 1)⌉ :=
    Int.natCast_ceil_eq_ceil hraw
  have hle : ⌈prob * ((d.n : K) + 1)⌉₊ ≤ d.n := Nat.ceil_le.mpr hn
  simp only [quantile, truncate_add_one hraw, ← hceil]
  congr 2
  omega

/-- A probability is reached where the rank of its quantile is. -/
theorem le_cdf_iff_quantile_le [FloorRing K] (h0 : 0 < prob)
    (hn : prob ≤ (d.n : K) / ((d.n : K) + 1)) :
    prob ≤ d.cdf y predVal ↔ d.quantile prob predVal ≤ y := by
  have hpos : (0 : K) < (d.n : K) + 1 := by positivity
  have hraw : prob * ((d.n : K) + 1) ≤ d.n := (le_div_iff₀ hpos).mp hn
  have hceil : 0 < ⌈prob * ((d.n : K) + 1)⌉₊ := Nat.ceil_pos.mpr (by positivity)
  have hle : ⌈prob * ((d.n : K) + 1)⌉₊ ≤ d.n := Nat.ceil_le.mpr hraw
  calc prob ≤ d.cdf y predVal
      ↔ prob * ((d.n : K) + 1) ≤ (cpBsearch d.residuals d.n (y - predVal) : K) :=
        le_div_iff₀ hpos
    _ ↔ ⌈prob * ((d.n : K) + 1)⌉₊ ≤ cpBsearch d.residuals d.n (y - predVal) := Nat.ceil_le.symm
    _ ↔ ⌈prob * ((d.n : K) + 1)⌉₊ - 1 < cpBsearch d.residuals d.n (y - predVal) := by omega
    _ ↔ d.residuals (⌈prob * ((d.n : K) + 1)⌉₊ - 1) ≤ y - predVal :=
        lt_cpBsearch_iff (by omega)
    _ ↔ d.quantile prob predVal ≤ y := by rw [quantile_eq h0 hraw, le_sub_iff_add_le']

end ConformalPredDist

open ConformalPredDist

/-- **The distribution function and the quantiles are a Galois connection**, and the
distribution function is monotone. -/
theorem quantile_le_iff [FloorRing K] [IsStrictOrderedRing K] (residVec : List K)
    (predVal : K) {prob : K} (h0 : 0 < prob)
    (hn : prob ≤ (residVec.length : K) / ((residVec.length : K) + 1)) :
    (∀ y, prob ≤ (conformalPredDist residVec).cdf y predVal ↔
      (conformalPredDist residVec).quantile prob predVal ≤ y) ∧
    ∀ y y', y ≤ y' → (conformalPredDist residVec).cdf y predVal ≤
      (conformalPredDist residVec).cdf y' predVal :=
  ⟨fun _ => le_cdf_iff_quantile_le h0 hn, fun _ _ => cdf_mono⟩

theorem quantile_le_iff_three :
    (∀ y, (1 : ℚ) / 2 ≤ (conformalPredDist [3, 1, 1]).cdf y 0 ↔
      (conformalPredDist [3, 1, 1]).quantile (1 / 2) 0 ≤ y) ∧
    ∀ y y', y ≤ y' → (conformalPredDist [(3 : ℚ), 1, 1]).cdf y 0 ≤
      (conformalPredDist [3, 1, 1]).cdf y' 0 :=
  quantile_le_iff [3, 1, 1] 0 (by norm_num) (by norm_num)

end Lush.Conformal
