import Lush.Conformal.Regression

/-!
# Jackknife+ intervals

`jackknife-plus` fits a model for each training point that is left out.
`jackknife-plus-lm` and `jackknife-plus-ridge` compute the predictions of these
models from a single fit.
-/

namespace Lush.Conformal

open LeaveOneOut

variable {K : Type} [Field K] [LinearOrder K] {n m p t : ℕ}

/-! ## Intervals -/

/-- The conversion of a `double` to an `int`. -/
def truncate [FloorRing K] (x : K) : ℤ := if 0 ≤ x then ⌊x⌋ else ⌈x⌉

/-- A number that is no integer is rounded to the integer above it. -/
theorem truncate_add_one [FloorRing K] [IsStrictOrderedRing K] {raw : K} (h : 0 ≤ raw) :
    (if raw > truncate raw then truncate raw + 1 else truncate raw) = ⌈raw⌉ := by
  rw [truncate, if_pos h]
  rcases (Int.floor_le raw).lt_or_eq with hlt | heq
  · rw [if_pos hlt]
    exact (Int.ceil_eq_iff.mpr ⟨by simpa using hlt, by
      simpa using (Int.lt_floor_add_one raw).le⟩).symm
  · rw [if_neg heq.not_lt, ← heq, Int.ceil_intCast, Int.floor_intCast]

/-- The position of a quantile among `n` values. -/
def quantileIndex [FloorRing K] (n : ℕ) (raw : K) : ℕ :=
  let i := (if raw > truncate raw then truncate raw + 1 else truncate raw) - 1
  if i < 0 then 0 else if i ≥ n then n - 1 else i.toNat

/-- `_cp-jkplus-intervals`. -/
def cpJkplusIntervals [FloorRing K] (looPreds : Matrix (Fin n) (Fin t) K) (looResid : Fin n → K)
    (alpha : K) : Matrix (Fin t) (Fin 2) K :=
  let ilo := quantileIndex n (((n : K) + 1) * alpha)
  let ihi := quantileIndex n (((n : K) + 1) * (1 - alpha))
  Matrix.of fun j => ![
    ((List.ofFn fun i => looPreds i j - looResid i).insertionSort (· ≤ ·)).getD ilo 0,
    ((List.ofFn fun i => looPreds i j + looResid i).insertionSort (· ≤ ·)).getD ihi 0]

/-- A loop whose rounds give one value each. -/
def forRows {β : Type} : {n : ℕ} → (Fin n → Except Fault β) → Except Fault (Fin n → β)
  | 0, _ => .ok Fin.elim0
  | n + 1, f => do
      let a ← f ⟨0, n.succ_pos⟩
      let rest ← forRows fun i => f i.succ
      return Fin.cons a rest

/-- What a model that is fitted without the point `i` predicts: the residual of that
point, and the test data. -/
def looRound {M : Type}
    (modelFn : Matrix (Fin m) (Fin p) K → (Fin m → K) → Except Fault M)
    (predictFn : M → (k : ℕ) → Matrix (Fin k) (Fin p) K → Fin k → K)
    (trainX : Matrix (Fin (m + 1)) (Fin p) K) (trainY : Fin (m + 1) → K)
    (testX : Matrix (Fin t) (Fin p) K) (i : Fin (m + 1)) : Except Fault (K × (Fin t → K)) := do
  let model ← modelFn (Matrix.of (dropRow trainX i)) (dropRow trainY i)
  let xi : Matrix (Fin 1) (Fin p) K := Matrix.of fun _ => trainX i
  return (|trainY i - predictFn model 1 xi (Fin.last 0)|, predictFn model t testX)

/-- `jackknife-plus`. -/
def jackknifePlus [FloorRing K] {M : Type}
    (modelFn : Matrix (Fin m) (Fin p) K → (Fin m → K) → Except Fault M)
    (predictFn : M → (k : ℕ) → Matrix (Fin k) (Fin p) K → Fin k → K)
    (trainX : Matrix (Fin (m + 1)) (Fin p) K) (trainY : Fin (m + 1) → K)
    (testX : Matrix (Fin t) (Fin p) K) (alpha : K) : Except Fault (Matrix (Fin t) (Fin 2) K) := do
  let loo ← forRows (looRound modelFn predictFn trainX trainY testX)
  return cpJkplusIntervals (Matrix.of fun i => (loo i).2) (fun i => (loo i).1) alpha

/-! ## From one fit -/

/-- `_cp-loo-apply`. -/
def cpLooApply (crossMat : Matrix (Fin t) (Fin n) K) (testPred : Fin t → K)
    (resid hatDiag : Fin n → K) : Matrix (Fin n) (Fin t) K :=
  Matrix.of fun i j =>
    let denom := if 1 - hatDiag i < eps K then eps K else 1 - hatDiag i
    testPred j - crossMat j i * (resid i / denom)

/-- The residuals of the points that are left out. -/
def looResiduals (resid hatDiag : Fin n → K) : Fin n → K := fun i =>
  let denom := if |1 - hatDiag i| < eps K then eps K else 1 - hatDiag i
  |resid i / denom|

/-- The cross-influence matrix: the columns of `x * v` are scaled. -/
def crossInfluence (x : Matrix (Fin n) (Fin p) K) (test : Matrix (Fin t) (Fin p) K)
    (v : Matrix (Fin p) (Fin p) K) (scale : Fin p → K) : Matrix (Fin t) (Fin n) K :=
  let w : Matrix (Fin n) (Fin p) K := Matrix.of fun i j => (∑ k, x i k * v k j) * scale j
  let tv : Matrix (Fin t) (Fin p) K := Matrix.of fun i j => ∑ k, test i k * v k j
  Matrix.of fun i j => ∑ k, tv i k * w j k

/-- The scale of the columns in `jackknife-plus-lm`. -/
def lmScale (d : Svd K n p) : Fin p → K := fun j =>
  if d.s j > eps K then 1 / (d.s j * d.s j) else 1

/-- `jackknife-plus-lm`. -/
def jackknifePlusLm [FloorRing K] (svd : SvdOracle K) (lm : LmModel K n p)
    (testX : Matrix (Fin t) (Fin p) K) (alpha : K) : Except Fault (Matrix (Fin t) (Fin 2) K) := do
  let d ← svdInplace svd lm.xAug
  let testAug := regAddIntercept testX
  let crossMat := crossInfluence lm.xAug testAug d.v (lmScale d)
  let looResid := looResiduals lm.residuals lm.hatDiag
  let testPred := lmPredict lm.coefficients testX
  let looPreds := cpLooApply crossMat testPred lm.residuals lm.hatDiag
  return cpJkplusIntervals looPreds looResid alpha

/-- `jackknife-plus-ridge`. -/
def jackknifePlusRidge [FloorRing K] (svd : SvdOracle K) (trainX : Matrix (Fin n) (Fin p) K)
    (trainY : Fin n → K) (lam : K) (testX : Matrix (Fin t) (Fin p) K) (alpha : K) :
    Except Fault (Matrix (Fin t) (Fin 2) K) := do
  let xMean := columnMean trainX
  let xc := centerColumns xMean trainX
  let yc : Fin n → K := fun i => trainY i - mean trainY
  let d ← svdInplace svd xc
  let betaC := ridgeCoefficients d lam yc
  let intercept := ridgeIntercept trainX trainY betaC
  let resid : Fin n → K := fun i => trainY i - (intercept + ∑ j, trainX i j * betaC j)
  let hatDiag : Fin n → K := fun i =>
    ∑ k, d.u i k * d.u i k * (d.s k * d.s k / (d.s k * d.s k + lam))
  let testC := centerColumns xMean testX
  let crossMat := crossInfluence xc testC d.v fun j => 1 / (d.s j * d.s j + lam)
  let looResid := looResiduals resid hatDiag
  let testPred : Fin t → K := fun i => intercept + ∑ j, testX i j * betaC j
  let looPreds := cpLooApply crossMat testPred resid hatDiag
  return cpJkplusIntervals looPreds looResid alpha

end Lush.Conformal
