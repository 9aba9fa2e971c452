import Mathlib

/-!
# Least squares with one row left out

A vector of coefficients `b` fits a matrix `A` and a vector `y` if it solves the
normal equations `(Aᵀ A + P) b = Aᵀ y`, with a penalty `P`.  When a row of `A` is
left out, the solution moves by a multiple of the vector `m` with
`(Aᵀ A + P) m = a`, where `a` is the row (`Fits.dropRow`).

From a singular value decomposition of `A` the fit and the vectors `m` can be read
off, and the fit is the only one.
-/

namespace Lush.LeaveOneOut

open Matrix

variable {K : Type*} [Field K] {m n p t : ℕ}

/-! ## Rows -/

/-- All rows but one, in their order. -/
def dropRow {β : Type*} (x : Fin (m + 1) → β) (i : Fin (m + 1)) : Fin m → β :=
  fun j => x (i.succAbove j)

/-- `b` solves the normal equations. -/
def Fits (P : Matrix (Fin p) (Fin p) K) (A : Matrix (Fin n) (Fin p) K) (y : Fin n → K)
    (b : Fin p → K) : Prop :=
  (Aᵀ * A + P) *ᵥ b = Aᵀ *ᵥ y

/-- The weight of the row `a` in the fits. -/
def Influence (P : Matrix (Fin p) (Fin p) K) (A : Matrix (Fin n) (Fin p) K) (a b : Fin p → K) :
    Prop :=
  (Aᵀ * A + P) *ᵥ b = a

variable {P : Matrix (Fin p) (Fin p) K} {A : Matrix (Fin (m + 1)) (Fin p) K} {y : Fin (m + 1) → K}
  {b c : Fin p → K} {i : Fin (m + 1)}

theorem transpose_mulVec_dropRow (A : Matrix (Fin (m + 1)) (Fin p) K) (y : Fin (m + 1) → K)
    (i : Fin (m + 1)) : (Matrix.of (dropRow A i))ᵀ *ᵥ dropRow y i = Aᵀ *ᵥ y - y i • A i := by
  funext k
  simp only [mulVec, dotProduct, transpose_apply, of_apply, dropRow, Pi.sub_apply, Pi.smul_apply,
    smul_eq_mul, Fin.sum_univ_succAbove _ i]
  ring

theorem gram_dropRow (A : Matrix (Fin (m + 1)) (Fin p) K) (v : Fin p → K) (i : Fin (m + 1)) :
    ((Matrix.of (dropRow A i))ᵀ * Matrix.of (dropRow A i)) *ᵥ v =
      (Aᵀ * A) *ᵥ v - (A i ⬝ᵥ v) • A i := by
  have hrows : Matrix.of (dropRow A i) *ᵥ v = dropRow (A *ᵥ v) i := rfl
  rw [← mulVec_mulVec, hrows, transpose_mulVec_dropRow, mulVec_mulVec]
  rfl

/-- **The fit without the row `i`.** -/
theorem Fits.dropRow (h : Fits P A y b) (hc : Influence P A (A i) c) (hne : 1 - A i ⬝ᵥ c ≠ 0) :
    Fits P (Matrix.of (dropRow A i)) (dropRow y i)
      (b - ((y i - A i ⬝ᵥ b) / (1 - A i ⬝ᵥ c)) • c) := by
  set r := y i - A i ⬝ᵥ b with hr
  set q := r / (1 - A i ⬝ᵥ c) with hq
  have hq' : q * (1 - A i ⬝ᵥ c) = r := div_mul_cancel₀ r hne
  have hgram : (Aᵀ * A + P) *ᵥ (b - q • c) = Aᵀ *ᵥ y - q • A i := by
    rw [mulVec_sub, mulVec_smul, h, hc]
  have hdot : A i ⬝ᵥ (b - q • c) = A i ⬝ᵥ b - q * (A i ⬝ᵥ c) := by
    rw [dotProduct_sub, dotProduct_smul, smul_eq_mul]
  unfold Fits
  calc ((Matrix.of (LeaveOneOut.dropRow A i))ᵀ * Matrix.of (LeaveOneOut.dropRow A i) + P) *ᵥ
        (b - q • c)
    _ = (Aᵀ * A + P) *ᵥ (b - q • c) - (A i ⬝ᵥ (b - q • c)) • A i := by
          rw [add_mulVec, gram_dropRow, add_mulVec, sub_add_eq_add_sub]
    _ = Aᵀ *ᵥ y - (q + (A i ⬝ᵥ b - q * (A i ⬝ᵥ c))) • A i := by
          rw [hgram, hdot, add_smul, sub_sub]
    _ = Aᵀ *ᵥ y - y i • A i := by
          congr 2
          linear_combination hq' + hr
    _ = _ := (transpose_mulVec_dropRow A y i).symm

/-- The residual of the row that is left out. -/
theorem residual_dropRow (hne : 1 - A i ⬝ᵥ c ≠ 0) :
    y i - A i ⬝ᵥ (b - ((y i - A i ⬝ᵥ b) / (1 - A i ⬝ᵥ c)) • c) =
      (y i - A i ⬝ᵥ b) / (1 - A i ⬝ᵥ c) := by
  rw [dotProduct_sub, dotProduct_smul, smul_eq_mul]
  field_simp
  ring

/-! ## Singular values -/

/-- The factors of a singular value decomposition. -/
structure Svd (K : Type*) (n p : ℕ) where
  u : Matrix (Fin n) (Fin p) K
  v : Matrix (Fin p) (Fin p) K
  s : Fin p → K

/-- The factors are those of `A`. -/
structure IsSvd [LinearOrder K] (A : Matrix (Fin n) (Fin p) K) (D : Svd K n p) : Prop where
  eq : A = D.u * diagonal D.s * D.vᵀ
  left : D.uᵀ * D.u = 1
  right : D.vᵀ * D.v = 1
  nonneg : ∀ j, 0 ≤ D.s j

/-- The fit that is read off the factors. -/
def Svd.fit (D : Svd K n p) (y : Fin n → K) : Fin p → K :=
  D.v *ᵥ fun j => (D.uᵀ *ᵥ y) j / D.s j

/-- The influence that is read off the factors. -/
def Svd.influence (D : Svd K n p) (a : Fin p → K) : Fin p → K :=
  D.v *ᵥ fun j => (D.vᵀ *ᵥ a) j / (D.s j * D.s j)

section IsSvd

variable [LinearOrder K] {A : Matrix (Fin n) (Fin p) K} {D : Svd K n p} {y : Fin n → K}
  {b b' a : Fin p → K}

theorem IsSvd.right' (h : IsSvd A D) : D.v * D.vᵀ = 1 :=
  mul_eq_one_comm.mp h.right

theorem IsSvd.transpose (h : IsSvd A D) : Aᵀ = D.v * diagonal D.s * D.uᵀ := by
  conv_lhs => rw [h.eq]
  rw [transpose_mul, transpose_mul, transpose_transpose, diagonal_transpose, ← Matrix.mul_assoc]

theorem IsSvd.gram (h : IsSvd A D) :
    Aᵀ * A = D.v * diagonal (fun j => D.s j * D.s j) * D.vᵀ := by
  calc Aᵀ * A = D.v * diagonal D.s * D.uᵀ * (D.u * diagonal D.s * D.vᵀ) := by
        rw [h.transpose, ← h.eq]
    _ = D.v * (diagonal D.s * (D.uᵀ * D.u) * diagonal D.s) * D.vᵀ := by
        simp only [Matrix.mul_assoc]
    _ = _ := by rw [h.left, Matrix.mul_one, diagonal_mul_diagonal]

theorem IsSvd.gram_mulVec (h : IsSvd A D) (w : Fin p → K) :
    (Aᵀ * A) *ᵥ (D.v *ᵥ w) = D.v *ᵥ fun j => D.s j * D.s j * w j := by
  have hdiag : diagonal (fun j => D.s j * D.s j) *ᵥ w = fun j => D.s j * D.s j * w j := by
    funext j
    exact mulVec_diagonal _ _ j
  rw [h.gram, mulVec_mulVec, Matrix.mul_assoc, h.right, Matrix.mul_one, ← mulVec_mulVec, hdiag]

theorem IsSvd.fits (h : IsSvd A D) (hs : ∀ j, D.s j ≠ 0) : Fits 0 A y (D.fit y) := by
  unfold Fits Svd.fit
  rw [add_zero, h.gram_mulVec, h.transpose, Matrix.mul_assoc, ← mulVec_mulVec, ← mulVec_mulVec]
  congr 1
  funext j
  rw [mulVec_diagonal]
  have hj := hs j
  field_simp

theorem IsSvd.influence (h : IsSvd A D) (hs : ∀ j, D.s j ≠ 0) :
    Influence 0 A a (D.influence a) := by
  unfold Influence Svd.influence
  have hcancel : (fun j => D.s j * D.s j * ((D.vᵀ *ᵥ a) j / (D.s j * D.s j))) = D.vᵀ *ᵥ a := by
    funext j
    have hj := hs j
    field_simp
  rw [add_zero, h.gram_mulVec, hcancel, mulVec_mulVec, h.right', one_mulVec]

/-- The leverage of a row is the weight of its influence on itself. -/
theorem IsSvd.leverage (h : IsSvd A D) (hs : ∀ j, D.s j ≠ 0) (i : Fin n) :
    A i ⬝ᵥ D.influence (A i) = ∑ k, D.u i k * D.u i k := by
  have hrow : D.vᵀ *ᵥ A i = fun j => D.u i j * D.s j := by
    have hAV : A * D.v = D.u * diagonal D.s := by
      conv_lhs => rw [h.eq]
      rw [Matrix.mul_assoc, h.right, Matrix.mul_one]
    funext j
    have hentry : (A * D.v) i j = (D.u * diagonal D.s) i j := by rw [hAV]
    rw [mul_diagonal] at hentry
    rw [← hentry]
    simp only [mulVec, dotProduct, transpose_apply, mul_apply]
    exact Finset.sum_congr rfl fun k _ => mul_comm _ _
  unfold Svd.influence
  rw [dotProduct_mulVec, ← mulVec_transpose, hrow]
  refine Finset.sum_congr rfl fun k _ => ?_
  have hk := hs k
  field_simp

theorem IsSvd.mulVec_transpose (h : IsSvd A D) (b : Fin p → K) : D.v *ᵥ (D.vᵀ *ᵥ b) = b := by
  rw [mulVec_mulVec, h.right', one_mulVec]

theorem IsSvd.transpose_gram (h : IsSvd A D) (b : Fin p → K) :
    D.vᵀ *ᵥ ((Aᵀ * A) *ᵥ b) = fun j => D.s j * D.s j * (D.vᵀ *ᵥ b) j := by
  conv_lhs => rw [← h.mulVec_transpose b]
  rw [h.gram_mulVec, mulVec_mulVec, h.right, one_mulVec]

/-- Where no singular value is zero there is one fit only. -/
theorem IsSvd.unique (h : IsSvd A D) (hs : ∀ j, D.s j ≠ 0)
    (hb : (Aᵀ * A) *ᵥ b = (Aᵀ * A) *ᵥ b') : b = b' := by
  have hcoord : D.vᵀ *ᵥ b = D.vᵀ *ᵥ b' := by
    funext j
    have hj : D.s j * D.s j * (D.vᵀ *ᵥ b) j = D.s j * D.s j * (D.vᵀ *ᵥ b') j := by
      have hgram := congrArg (D.vᵀ *ᵥ ·) hb
      exact congrFun ((h.transpose_gram b).symm.trans (hgram.trans (h.transpose_gram b'))) j
    exact mul_left_cancel₀ (mul_ne_zero (hs j) (hs j)) hj
  rw [← h.mulVec_transpose b, hcoord, h.mulVec_transpose b']

theorem Fits.eq_fit (hb : Fits 0 A y b) (h : IsSvd A D) (hs : ∀ j, D.s j ≠ 0) : D.fit y = b := by
  refine h.unique hs ?_
  have hfit := h.fits (y := y) hs
  unfold Fits at hb hfit
  rw [add_zero] at hb hfit
  rw [hb, hfit]

/-- The singular values of a matrix that shrinks no vector by more than a factor. -/
theorem IsSvd.le_mul_self {c : K} (h : IsSvd A D)
    (hc : ∀ w, c * (w ⬝ᵥ w) ≤ w ⬝ᵥ ((Aᵀ * A) *ᵥ w)) (j : Fin p) : c ≤ D.s j * D.s j := by
  set w := D.v *ᵥ Pi.single j 1 with hw
  have hgram : (Aᵀ * A) *ᵥ w = (D.s j * D.s j) • w := by
    rw [hw, h.gram_mulVec, ← mulVec_smul]
    congr 1
    funext k
    by_cases hk : k = j
    · subst hk
      simp
    · simp [hk]
  have hunit : w ⬝ᵥ w = 1 := by
    calc w ⬝ᵥ w = (D.vᵀ *ᵥ (D.v *ᵥ Pi.single j 1)) ⬝ᵥ Pi.single j 1 := by
          rw [hw, dotProduct_mulVec, Matrix.mulVec_transpose]
      _ = 1 := by
          rw [mulVec_mulVec, h.right, one_mulVec]
          simp
  have hle := hc w
  rwa [hgram, dotProduct_smul, hunit, smul_eq_mul, mul_one, mul_one] at hle

end IsSvd

/-- **A matrix of full column rank has a singular value decomposition**, from the
eigenvectors of its Gram matrix. -/
theorem exists_isSvd {A : Matrix (Fin n) (Fin p) ℝ} (h : Function.Injective A.mulVec) :
    ∃ D, IsSvd A D := by
  have hpos : PosDef (Aᵀ * A) := by
    rw [← conjTranspose_eq_transpose_of_trivial]
    exact PosDef.conjTranspose_mul_self A h
  set V : Matrix (Fin p) (Fin p) ℝ :=
    (hpos.1.eigenvectorUnitary).1 with hV
  set ev := hpos.1.eigenvalues with hev
  have hstar : star V = Vᵀ := conjTranspose_eq_transpose_of_trivial V
  have hVV : Vᵀ * V = 1 := by
    rw [← hstar]
    exact Unitary.coe_star_mul_self hpos.1.eigenvectorUnitary
  have hVV' : V * Vᵀ = 1 := mul_eq_one_comm.mp hVV
  have hdiag : Vᵀ * (Aᵀ * A) * V = diagonal ev := by
    have hspec := hpos.1.conjStarAlgAut_star_eigenvectorUnitary
    rw [Unitary.conjStarAlgAut_star_apply] at hspec
    rw [← hstar]
    exact hspec
  have hsqrt : ∀ j, √(ev j) * √(ev j) = ev j := fun j => Real.mul_self_sqrt (hpos.eigenvalues_pos j).le
  have hne : ∀ j, √(ev j) ≠ 0 := fun j => (Real.sqrt_pos.mpr (hpos.eigenvalues_pos j)).ne'
  refine ⟨⟨A * V * diagonal fun j => (√(ev j))⁻¹, V, fun j => √(ev j)⟩, ?_, ?_, hVV,
    fun j => Real.sqrt_nonneg _⟩
  · have hcancel : (diagonal fun j => (√(ev j))⁻¹) * diagonal (fun j => √(ev j)) = 1 := by
      rw [diagonal_mul_diagonal, ← diagonal_one]
      exact congrArg diagonal (funext fun j => inv_mul_cancel₀ (hne j))
    change A = A * V * (diagonal fun j => (√(ev j))⁻¹) * diagonal (fun j => √(ev j)) * Vᵀ
    rw [Matrix.mul_assoc (A * V), hcancel, Matrix.mul_one, Matrix.mul_assoc, hVV', Matrix.mul_one]
  · change (A * V * diagonal fun j => (√(ev j))⁻¹)ᵀ * (A * V * diagonal fun j => (√(ev j))⁻¹) = 1
    calc (A * V * diagonal fun j => (√(ev j))⁻¹)ᵀ * (A * V * diagonal fun j => (√(ev j))⁻¹)
      _ = (diagonal fun j => (√(ev j))⁻¹) * (Vᵀ * (Aᵀ * A) * V) *
            diagonal fun j => (√(ev j))⁻¹ := by
          simp only [transpose_mul, diagonal_transpose, Matrix.mul_assoc]
      _ = diagonal fun j => (√(ev j))⁻¹ * ev j * (√(ev j))⁻¹ := by
          rw [hdiag, diagonal_mul_diagonal, diagonal_mul_diagonal]
      _ = 1 := by
          rw [← diagonal_one]
          refine congrArg diagonal (funext fun j => ?_)
          have hj := hne j
          calc (√(ev j))⁻¹ * ev j * (√(ev j))⁻¹
            _ = (√(ev j))⁻¹ * (√(ev j) * √(ev j)) * (√(ev j))⁻¹ := by rw [hsqrt j]
            _ = 1 := by rw [inv_mul_cancel_left₀ hj, mul_inv_cancel₀ hj]

end Lush.LeaveOneOut
