import Lush.Basic
import Lush.Library.LeaveOneOut

/-!
# Linear models

`lm-model` and `ridge` fit linear models by singular value decomposition, which is a
parameter here (`svd`).  The numbers are those of an ordered field, so that the
arithmetic is exact.  A matrix is a function of its rows and columns, and a loop that
accumulates a sum is the sum.
-/

namespace Lush.Conformal

open LeaveOneOut

variable {K : Type} [Field K] [LinearOrder K] {n p t : ℕ}

/-- The singular value decompositions. -/
abbrev SvdOracle (K : Type) : Type :=
  (n p : ℕ) → Matrix (Fin n) (Fin p) K → Svd K n p

/-- `svd-inplace`. -/
def svdInplace (svd : SvdOracle K) (a : Matrix (Fin n) (Fin p) K) : Except Fault (Svd K n p) :=
  if n < p then .error (.error "must have M>=N for SVD of MxN matrix") else .ok (svd n p a)

/-- The constant `1e-14`. -/
def eps (K : Type) [Field K] : K := 1 / (10 ^ 14 : ℕ)

/-! ## `lm-model` -/

/-- `_reg-add-intercept`. -/
def regAddIntercept (x : Matrix (Fin n) (Fin p) K) : Matrix (Fin n) (Fin (p + 1)) K :=
  Matrix.of fun i => Fin.cons 1 (x i)

/-- `lm-model`, with an intercept. -/
structure LmModel (K : Type) (n p : ℕ) where
  coefficients : Fin (p + 1) → K
  fitted : Fin n → K
  residuals : Fin n → K
  hatDiag : Fin n → K
  xAug : Matrix (Fin n) (Fin (p + 1)) K

/-- The coefficients, from the factors of the design matrix: a singular value that is
too small is not divided by. -/
def lmCoefficients (d : Svd K n p) (y : Fin n → K) : Fin p → K := fun k =>
  ∑ j, d.v k j *
    (if d.s j > eps K then (∑ i, d.u i j * y i) / d.s j else ∑ i, d.u i j * y i)

/-- `(new lm-model x y)`. -/
def lmModel (svd : SvdOracle K) (x : Matrix (Fin n) (Fin p) K) (y : Fin n → K) :
    Except Fault (LmModel K n p) :=
  if n ≤ p + 1 then .error (.error "not enough observations for the number of predictors")
  else do
    let xa := regAddIntercept x
    let d ← svdInplace svd xa
    let coefficients := lmCoefficients d y
    let fitted : Fin n → K := fun i => ∑ j, xa i j * coefficients j
    return {
      coefficients := coefficients
      fitted := fitted
      residuals := fun i => y i - fitted i
      hatDiag := fun i => ∑ k, d.u i k * d.u i k
      xAug := xa }

/-- `(==> lm predict x)`, with the coefficients of the model. -/
def lmPredict (coefficients : Fin (p + 1) → K) (x : Matrix (Fin t) (Fin p) K) : Fin t → K :=
  fun i => ∑ j, regAddIntercept x i j * coefficients j

/-! ## `ridge` -/

/-- The means of the columns. -/
def columnMean (x : Matrix (Fin n) (Fin p) K) : Fin p → K := fun j => (∑ i, x i j) / n

/-- The mean of a vector. -/
def mean (y : Fin n → K) : K := (∑ i, y i) / n

/-- The columns are centered. -/
def centerColumns (m : Fin p → K) (x : Matrix (Fin t) (Fin p) K) : Matrix (Fin t) (Fin p) K :=
  Matrix.of fun i j => x i j - m j

/-- The coefficients of the centered data, from the factors. -/
def ridgeCoefficients (d : Svd K n p) (lam : K) (yc : Fin n → K) : Fin p → K := fun k =>
  ∑ j, d.v k j * ((∑ i, d.u i j * yc i) * (d.s j / (d.s j * d.s j + lam)))

/-- The intercept that belongs to the coefficients. -/
def ridgeIntercept (x : Matrix (Fin n) (Fin p) K) (y : Fin n → K) (beta : Fin p → K) : K :=
  mean y - ∑ j, columnMean x j * beta j

/-- `(ridge x y lambda)`, with an intercept. -/
def ridge (svd : SvdOracle K) (lam : K) (x : Matrix (Fin n) (Fin p) K) (y : Fin n → K) :
    Except Fault (Fin (p + 1) → K) := do
  let xc := centerColumns (columnMean x) x
  let yc : Fin n → K := fun i => y i - mean y
  let d ← svdInplace svd xc
  let betaC := ridgeCoefficients d lam yc
  return Fin.cons (ridgeIntercept x y betaC) betaC

/-- The predictions from the coefficients of `ridge`, as in `conformal-ridge`. -/
def ridgePredict (coefs : Fin (p + 1) → K) (x : Matrix (Fin t) (Fin p) K) : Fin t → K :=
  fun i => coefs 0 + ∑ j, x i j * coefs (Fin.succ j)

end Lush.Conformal
