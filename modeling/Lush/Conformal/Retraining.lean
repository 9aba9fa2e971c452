import Lush.Conformal.JackknifePlus

/-!
# The fast Jackknife+ and retraining

For a linear model, the fit without a row is the fit with all rows, moved along the
influence of the row.  So `jackknife-plus-lm` gives the intervals of
`jackknife-plus`, as long as the guards against small numbers are not reached.

`jackknife-plus-ridge` uses the same formulas on the centered data, and leaves out
what a row contributes to the means: its leverages are too small by `1/n`.
-/

namespace Lush.Conformal

open LeaveOneOut Matrix

variable {K : Type} [Field K] [LinearOrder K] {m n p t : ℕ}

/-- The columns are independent. -/
def FullColumnRank (A : Matrix (Fin n) (Fin p) K) : Prop :=
  Function.Injective A.mulVec

/-- `svd-inplace` gives a singular value decomposition. -/
def ExactSvd (svd : SvdOracle K) : Prop :=
  ∀ (n p : ℕ) (A : Matrix (Fin n) (Fin p) K), FullColumnRank A → IsSvd A (svd n p A)

/-- `jackknife-plus` with `lm-model` as `model-fn`. -/
def retrainLm [FloorRing K] (svd : SvdOracle K) (trainX : Matrix (Fin (m + 1)) (Fin p) K)
    (trainY : Fin (m + 1) → K) (testX : Matrix (Fin t) (Fin p) K) (alpha : K) :
    Except Fault (Matrix (Fin t) (Fin 2) K) :=
  jackknifePlus (lmModel svd) (fun lm _ x => lmPredict lm.coefficients x) trainX trainY testX alpha

/-- `jackknife-plus` with `ridge` as `model-fn`. -/
def retrainRidge [FloorRing K] (svd : SvdOracle K) (trainX : Matrix (Fin (m + 1)) (Fin p) K)
    (trainY : Fin (m + 1) → K) (lam : K) (testX : Matrix (Fin t) (Fin p) K) (alpha : K) :
    Except Fault (Matrix (Fin t) (Fin 2) K) :=
  jackknifePlus (ridge svd lam) (fun coefs _ x => ridgePredict coefs x) trainX trainY testX alpha

/-- The design matrix without the row `i`. -/
def designWithout (trainX : Matrix (Fin (m + 1)) (Fin p) K) (i : Fin (m + 1)) :
    Matrix (Fin m) (Fin (p + 1)) K :=
  regAddIntercept (Matrix.of (dropRow trainX i))

/-- No singular value and no complement of a leverage is so small that it is replaced. -/
structure AboveGuards (svd : SvdOracle K) (trainX : Matrix (Fin (m + 1)) (Fin p) K) : Prop where
  full : ∀ j, eps K < (svd _ _ (regAddIntercept trainX)).s j
  without : ∀ i j, eps K < (svd _ _ (designWithout trainX i)).s j
  leverage : ∀ i, eps K ≤ 1 - ∑ k, (svd _ _ (regAddIntercept trainX)).u i k *
    (svd _ _ (regAddIntercept trainX)).u i k

theorem forRows_ok {β : Type} {f : Fin n → Except Fault β} {g : Fin n → β}
    (h : ∀ i, f i = .ok (g i)) : forRows f = .ok g := by
  induction n with
  | zero =>
      rw [forRows]
      exact congrArg _ (Subsingleton.elim _ _)
  | succ n ih =>
      have hrest : forRows (fun i => f i.succ) = .ok fun i => g i.succ := ih fun i => h i.succ
      simp only [forRows, h ⟨0, n.succ_pos⟩, hrest, bind, Except.bind]
      exact congrArg Except.ok (Fin.cons_self_tail g)

omit [Field K] [LinearOrder K] in
theorem svdInplace_ok {svd : SvdOracle K} {A : Matrix (Fin n) (Fin p) K} (h : p ≤ n) :
    svdInplace svd A = .ok (svd n p A) :=
  if_neg (Nat.not_lt.mpr h)

/-- The rounds of `jackknife-plus`, where the models are those of linear functions. -/
theorem jackknifePlus_ok [FloorRing K] {M : Type}
    {modelFn : Matrix (Fin m) (Fin p) K → (Fin m → K) → Except Fault M}
    {predictFn : M → (k : ℕ) → Matrix (Fin k) (Fin p) K → Fin k → K}
    {trainX : Matrix (Fin (m + 1)) (Fin p) K} {trainY : Fin (m + 1) → K}
    {testX : Matrix (Fin t) (Fin p) K} {alpha : K} {model : Fin (m + 1) → M}
    (h : ∀ i, modelFn (Matrix.of (dropRow trainX i)) (dropRow trainY i) = .ok (model i)) :
    jackknifePlus modelFn predictFn trainX trainY testX alpha =
      .ok (cpJkplusIntervals (Matrix.of fun i => predictFn (model i) t testX)
        (fun i => |trainY i - predictFn (model i) 1 (Matrix.of fun _ => trainX i) 0|) alpha) := by
  have hrounds : forRows (looRound modelFn predictFn trainX trainY testX) =
      .ok fun i => (|trainY i - predictFn (model i) 1 (Matrix.of fun _ => trainX i) 0|,
        predictFn (model i) t testX) := by
    apply forRows_ok
    intro i
    simp only [looRound, h i, bind, Except.bind]
    rfl
  simp only [jackknifePlus, hrounds, bind, Except.bind]
  rfl

/-! ## Linear regression -/

section Lm

variable {svd : SvdOracle K} {trainX : Matrix (Fin (m + 1)) (Fin p) K}
  {trainY : Fin (m + 1) → K} {testX : Matrix (Fin t) (Fin p) K} {alpha : K}
  {D : Svd K n p} {A : Matrix (Fin n) (Fin p) K} {T : Matrix (Fin t) (Fin p) K}

/-- Above the guard, the coefficients are those of the fit. -/
theorem lmCoefficients_eq (h : ∀ j, eps K < D.s j) (y : Fin n → K) :
    lmCoefficients D y = D.fit y := by
  funext k
  refine Finset.sum_congr rfl fun j _ => ?_
  rw [if_pos (h j)]
  rfl

omit [LinearOrder K] in
/-- The cross-influence matrix applies the influence of the training rows to the test
rows. -/
theorem crossInfluence_eq {scale : Fin p → K} (h : ∀ j, scale j = 1 / (D.s j * D.s j)) (i : Fin t)
    (j : Fin n) : crossInfluence A T D.v scale i j = T i ⬝ᵥ D.influence (A j) := by
  have hleft : ∀ k, ∑ l, T i l * D.v l k = (D.vᵀ *ᵥ T i) k :=
    fun k => Finset.sum_congr rfl fun l _ => mul_comm _ _
  have hright : ∀ k, ∑ l, A j l * D.v l k = (D.vᵀ *ᵥ A j) k :=
    fun k => Finset.sum_congr rfl fun l _ => mul_comm _ _
  unfold Svd.influence
  rw [dotProduct_mulVec, ← mulVec_transpose]
  change ∑ k, (∑ l, T i l * D.v l k) * ((∑ l, A j l * D.v l k) * scale k) = _
  refine Finset.sum_congr rfl fun k _ => ?_
  rw [h k, hleft, hright, mul_one_div]

theorem lmScale_eq (h : ∀ j, eps K < D.s j) (j : Fin p) : lmScale D j = 1 / (D.s j * D.s j) :=
  if_pos (h j)

omit [LinearOrder K] in
theorem lmPredict_sub (b c : Fin (p + 1) → K) (q : K) (x : Matrix (Fin t) (Fin p) K) (j : Fin t) :
    lmPredict (b - q • c) x j = lmPredict b x j - (regAddIntercept x j ⬝ᵥ c) * q := by
  change regAddIntercept x j ⬝ᵥ (b - q • c) = regAddIntercept x j ⬝ᵥ b - _
  rw [dotProduct_sub, dotProduct_smul, smul_eq_mul, mul_comm]

/-- The model that `lm-model` builds. -/
def fittedLm (svd : SvdOracle K) (x : Matrix (Fin n) (Fin p) K) (y : Fin n → K) : LmModel K n p :=
  let d := svd _ _ (regAddIntercept x)
  { coefficients := lmCoefficients d y
    fitted := fun i => ∑ j, regAddIntercept x i j * lmCoefficients d y j
    residuals := fun i => y i - ∑ j, regAddIntercept x i j * lmCoefficients d y j
    hatDiag := fun i => ∑ k, d.u i k * d.u i k
    xAug := regAddIntercept x }

theorem lmModel_ok {x : Matrix (Fin n) (Fin p) K} {y : Fin n → K} (h : p + 1 < n) :
    lmModel svd x y = .ok (fittedLm svd x y) := by
  unfold lmModel
  rw [if_neg (Nat.not_le.mpr h)]
  simp only [svdInplace_ok h.le, bind, Except.bind]
  rfl

omit [LinearOrder K] in
/-- A matrix that keeps its rank without a row has it with the row. -/
theorem fullColumnRank_of_without {i : Fin (m + 1)} (h : FullColumnRank (designWithout trainX i)) :
    FullColumnRank (regAddIntercept trainX) := by
  intro v w hvw
  apply h
  funext j
  exact congrFun hvw (i.succAbove j)

variable [IsStrictOrderedRing K]

theorem eps_pos : 0 < eps K := by
  unfold eps
  positivity

/-- The fit without a row. -/
theorem fit_without (hsvd : ExactSvd svd) (hguard : AboveGuards svd trainX) (i : Fin (m + 1))
    (hrank : FullColumnRank (designWithout trainX i)) :
    (svd _ _ (designWithout trainX i)).fit (dropRow trainY i) =
      (svd _ _ (regAddIntercept trainX)).fit trainY -
        ((trainY i - regAddIntercept trainX i ⬝ᵥ (svd _ _ (regAddIntercept trainX)).fit trainY) /
          (1 - ∑ k, (svd _ _ (regAddIntercept trainX)).u i k *
            (svd _ _ (regAddIntercept trainX)).u i k)) •
        (svd _ _ (regAddIntercept trainX)).influence (regAddIntercept trainX i) := by
  have hfull := hsvd _ _ _ (fullColumnRank_of_without hrank)
  have hs : ∀ j, (svd _ _ (regAddIntercept trainX)).s j ≠ 0 :=
    fun j => (eps_pos.trans (hguard.full j)).ne'
  have hs' : ∀ j, (svd _ _ (designWithout trainX i)).s j ≠ 0 :=
    fun j => (eps_pos.trans (hguard.without i j)).ne'
  have hlev := hfull.leverage hs i
  have hne : 1 - regAddIntercept trainX i ⬝ᵥ
      (svd _ _ (regAddIntercept trainX)).influence (regAddIntercept trainX i) ≠ 0 := by
    rw [hlev]
    exact (eps_pos.trans_le (hguard.leverage i)).ne'
  have hfits := (hfull.fits (y := trainY) hs).dropRow (hfull.influence hs) hne
  rw [hlev] at hfits
  exact hfits.eq_fit (hsvd _ _ _ hrank) hs'

omit [IsStrictOrderedRing K] in
theorem cpLooApply_eq {crossMat : Matrix (Fin t) (Fin n) K} {testPred : Fin t → K}
    {resid hatDiag : Fin n → K} {i : Fin n} (h : eps K ≤ 1 - hatDiag i) (j : Fin t) :
    cpLooApply crossMat testPred resid hatDiag i j =
      testPred j - crossMat j i * (resid i / (1 - hatDiag i)) := by
  change testPred j - crossMat j i * (resid i / if 1 - hatDiag i < eps K then eps K else _) = _
  rw [if_neg (not_lt.mpr h)]

theorem looResiduals_eq {resid hatDiag : Fin n → K} {i : Fin n} (h : eps K ≤ 1 - hatDiag i) :
    looResiduals resid hatDiag i = |resid i / (1 - hatDiag i)| := by
  have habs : ¬ |1 - hatDiag i| < eps K := by
    rw [abs_of_nonneg (eps_pos.le.trans h)]
    exact not_lt.mpr h
  change |resid i / if |1 - hatDiag i| < eps K then eps K else _| = _
  rw [if_neg habs]

/-- `jackknife-plus-lm` gives the intervals of `jackknife-plus`. -/
theorem jackknifePlusLm_ok [FloorRing K] (hsvd : ExactSvd svd) (hrows : p + 3 ≤ m + 1)
    (hrank : ∀ i, FullColumnRank (designWithout trainX i)) (hguard : AboveGuards svd trainX) :
    ∃ intervals, jackknifePlusLm svd (fittedLm svd trainX trainY) testX alpha = .ok intervals ∧
      retrainLm svd trainX trainY testX alpha = .ok intervals := by
  set lm := fittedLm svd trainX trainY with hlm
  set D := svd _ _ (regAddIntercept trainX) with hDdef
  have hD : IsSvd (regAddIntercept trainX) D := hsvd _ _ _ (fullColumnRank_of_without (hrank 0))
  have hs : ∀ j, D.s j ≠ 0 := fun j => (eps_pos.trans (hguard.full j)).ne'
  have hlev : ∀ i, regAddIntercept trainX i ⬝ᵥ D.influence (regAddIntercept trainX i) =
      lm.hatDiag i := hD.leverage hs
  have hfull : lm.coefficients = D.fit trainY := lmCoefficients_eq hguard.full _
  -- the coefficients of the model without the row `i`
  have hcoefs : ∀ i, (fittedLm svd (Matrix.of (dropRow trainX i)) (dropRow trainY i)).coefficients =
      lm.coefficients - (lm.residuals i / (1 - lm.hatDiag i)) •
        D.influence (regAddIntercept trainX i) := by
    intro i
    refine (lmCoefficients_eq (hguard.without i) _).trans ?_
    refine (fit_without hsvd hguard i (hrank i)).trans ?_
    rw [← hDdef, ← hfull]
    rfl
  have hpreds : cpLooApply
      (crossInfluence (regAddIntercept trainX) (regAddIntercept testX) D.v (lmScale D))
      (lmPredict lm.coefficients testX) lm.residuals lm.hatDiag =
      Matrix.of fun i => lmPredict
        (fittedLm svd (Matrix.of (dropRow trainX i)) (dropRow trainY i)).coefficients testX := by
    funext i j
    rw [cpLooApply_eq (hguard.leverage i), crossInfluence_eq (lmScale_eq hguard.full)]
    change _ = lmPredict
      (fittedLm svd (Matrix.of (dropRow trainX i)) (dropRow trainY i)).coefficients testX j
    rw [hcoefs i, lmPredict_sub]
  have hres : looResiduals lm.residuals lm.hatDiag = fun i => |trainY i - lmPredict
        (fittedLm svd (Matrix.of (dropRow trainX i)) (dropRow trainY i)).coefficients
          (Matrix.of fun _ : Fin 1 => trainX i) 0| := by
    funext i
    have hne : 1 - regAddIntercept trainX i ⬝ᵥ D.influence (regAddIntercept trainX i) ≠ 0 := by
      rw [hlev i]
      exact (eps_pos.trans_le (hguard.leverage i)).ne'
    have hdrop := residual_dropRow (y := trainY) (b := lm.coefficients) hne
    rw [hlev i] at hdrop
    rw [looResiduals_eq (hguard.leverage i), hcoefs i]
    exact congrArg _ hdrop.symm
  have hretrain : retrainLm svd trainX trainY testX alpha = _ :=
    jackknifePlus_ok fun i =>
      lmModel_ok (x := Matrix.of (dropRow trainX i)) (y := dropRow trainY i) (by omega)
  have hdecomp : svdInplace svd (regAddIntercept trainX) = .ok D := svdInplace_ok (by omega)
  refine ⟨_, ?_, hretrain⟩
  rw [← hres, ← hpreds]
  unfold jackknifePlusLm
  have hxaug : svdInplace svd lm.xAug = .ok D := hdecomp
  simp only [hxaug, bind, Except.bind]
  rfl

end Lm

/-! ## Ridge regression -/

section Ridge

variable [IsStrictOrderedRing K] {svd : SvdOracle K} {trainX : Matrix (Fin (m + 1)) (Fin p) K}
  {trainY : Fin (m + 1) → K} {testX : Matrix (Fin t) (Fin p) K} {lam alpha v : K}

theorem mean_const [NeZero n] {y : Fin n → K} (h : ∀ i, y i = v) : mean y = v := by
  have hn : (n : K) ≠ 0 := Nat.cast_ne_zero.mpr (NeZero.ne n)
  unfold mean
  rw [Finset.sum_congr rfl fun i _ => h i, Finset.sum_const, Finset.card_univ, Fintype.card_fin,
    nsmul_eq_mul, mul_div_cancel_left₀ v hn]

omit [IsStrictOrderedRing K] [LinearOrder K] in
/-- Where there is nothing to explain, the coefficients are zero. -/
theorem ridgeCoefficients_zero (d : Svd K n p) (lam : K) (yc : Fin n → K) (h : ∀ i, yc i = 0) :
    ridgeCoefficients d lam yc = 0 := by
  have hsum : ∀ j, ∑ i, d.u i j * yc i = 0 := by
    intro j
    refine Finset.sum_eq_zero fun i _ => ?_
    rw [h i, mul_zero]
  funext k
  refine Finset.sum_eq_zero fun j _ => ?_
  rw [hsum j, zero_mul, mul_zero]

/-- The intercept of a constant. -/
theorem ridgeIntercept_const [NeZero n] {x : Matrix (Fin n) (Fin p) K} {y : Fin n → K}
    (h : ∀ i, y i = v) : ridgeIntercept x y 0 = v := by
  have hsum : ∑ j, columnMean x j * (0 : Fin p → K) j = 0 :=
    Finset.sum_eq_zero fun j _ => mul_zero _
  rw [ridgeIntercept, mean_const h, hsum, sub_zero]

/-- `ridge` fits a constant by its intercept. -/
theorem ridge_const [NeZero n] {x : Matrix (Fin n) (Fin p) K} {y : Fin n → K} (hrows : p ≤ n)
    (h : ∀ i, y i = v) : ridge svd lam x y = .ok (Fin.cons v 0) := by
  have hcoefs := ridgeCoefficients_zero (svd n p (centerColumns (columnMean x) x)) lam
    (fun i => y i - mean y) fun i => by rw [h i, mean_const h, sub_self]
  unfold ridge
  simp only [svdInplace_ok hrows, hcoefs, ridgeIntercept_const h, bind, Except.bind]
  rfl

omit [IsStrictOrderedRing K] [LinearOrder K] in
theorem ridgePredict_const (x : Matrix (Fin t) (Fin p) K) (i : Fin t) :
    ridgePredict (Fin.cons v 0) x i = v := by
  simp [ridgePredict]

/-- For a constant, `jackknife-plus-ridge` gives the intervals of `jackknife-plus`. -/
theorem jackknifePlusRidge_ok [FloorRing K] (hrows : p + 3 ≤ m + 1) (h : ∀ i, trainY i = v) :
    ∃ intervals, jackknifePlusRidge svd trainX trainY lam testX alpha = .ok intervals ∧
      retrainRidge svd trainX trainY lam testX alpha = .ok intervals := by
  have hm : NeZero m := ⟨by omega⟩
  have hretrain : retrainRidge svd trainX trainY lam testX alpha = _ :=
    jackknifePlus_ok fun i =>
      ridge_const (y := dropRow trainY i) (v := v) (by omega) fun j => h (i.succAbove j)
  refine ⟨_, ?_, hretrain⟩
  have hcoefs := ridgeCoefficients_zero (svd _ _ (centerColumns (columnMean trainX) trainX)) lam
    (fun i => trainY i - mean trainY) fun i => by rw [h i, mean_const h, sub_self]
  unfold jackknifePlusRidge
  simp only [svdInplace_ok (show p ≤ m + 1 by omega), hcoefs, ridgeIntercept_const h, bind,
    Except.bind]
  refine congrArg Except.ok (congrArg₂ (fun P R => cpJkplusIntervals P R alpha) ?_ ?_)
  · funext i j
    simp [cpLooApply, ridgePredict_const, h]
  · funext i
    simp [looResiduals, ridgePredict_const, h]

end Ridge

/-! ## What holds of both -/

/-- **The fast Jackknife+ and retraining**: of the linear model the intervals are the
same above the guards, and of ridge regression where there is nothing to explain. -/
theorem fast_jackknife_eq_retraining [IsStrictOrderedRing K] [FloorRing K] {svd : SvdOracle K}
    (hsvd : ExactSvd svd) (trainX : Matrix (Fin (m + 1)) (Fin p) K) (trainY : Fin (m + 1) → K)
    (testX : Matrix (Fin t) (Fin p) K) (alpha : K) (hrows : p + 3 ≤ m + 1)
    (hrank : ∀ i, FullColumnRank (designWithout trainX i)) :
    (AboveGuards svd trainX → ∃ lm intervals, lmModel svd trainX trainY = .ok lm ∧
      jackknifePlusLm svd lm testX alpha = .ok intervals ∧
      retrainLm svd trainX trainY testX alpha = .ok intervals) ∧
    ((∀ i j, trainY i = trainY j) → ∀ lam, 0 < lam → ∃ intervals,
      jackknifePlusRidge svd trainX trainY lam testX alpha = .ok intervals ∧
      retrainRidge svd trainX trainY lam testX alpha = .ok intervals) := by
  constructor
  · intro hguard
    obtain ⟨intervals, hfast, hretrain⟩ : ∃ intervals,
        jackknifePlusLm svd (fittedLm svd trainX trainY) testX alpha = .ok intervals ∧
        retrainLm svd trainX trainY testX alpha = .ok intervals :=
      jackknifePlusLm_ok hsvd hrows hrank hguard
    exact ⟨_, intervals, lmModel_ok (by omega), hfast, hretrain⟩
  · intro hconst lam _
    exact jackknifePlusRidge_ok hrows fun i => hconst i 0

/-! ## Upper ends -/

section Ends

variable [FloorRing K] {looPreds : Matrix (Fin (m + 1)) (Fin t) K} {looResid : Fin (m + 1) → K}
  {alpha c : K} {j : Fin t}

/-- The quantile of the upper end is the largest value. -/
def LastQuantile (K : Type) [Field K] [LinearOrder K] [FloorRing K] (m : ℕ) (alpha : K) : Prop :=
  quantileIndex (m + 1) ((((m + 1 : ℕ) : K) + 1) * (1 - alpha)) = m

omit [FloorRing K] in
/-- The last one of a sorted list. -/
theorem largest_insertionSort {l : List K} (hl : l.length = m + 1) :
    (l.insertionSort (· ≤ ·)).getD m 0 ∈ l ∧
      ∀ a ∈ l, a ≤ (l.insertionSort (· ≤ ·)).getD m 0 := by
  have hlen : (l.insertionSort (· ≤ ·)).length = m + 1 := by
    rw [List.length_insertionSort, hl]
  have hm : m < (l.insertionSort (· ≤ ·)).length := by omega
  rw [List.getD_eq_getElem _ _ hm]
  constructor
  · exact (List.mem_insertionSort (· ≤ ·)).mp (List.getElem_mem hm)
  · intro a ha
    obtain ⟨k, hk, rfl⟩ := List.getElem_of_mem ((List.mem_insertionSort (· ≤ ·)).mpr ha)
    have hkm : k ≤ m := by omega
    exact List.sortedLE_insertionSort.getElem_le_getElem_of_le hkm

theorem upper_eq (hq : LastQuantile K m alpha) :
    cpJkplusIntervals looPreds looResid alpha j 1 =
      ((List.ofFn fun i => looPreds i j + looResid i).insertionSort (· ≤ ·)).getD m 0 := by
  change List.getD _ (quantileIndex _ _) _ = _
  unfold LastQuantile at hq
  rw [hq]

theorem le_upper (hq : LastQuantile K m alpha) (i : Fin (m + 1)) :
    looPreds i j + looResid i ≤ cpJkplusIntervals looPreds looResid alpha j 1 := by
  rw [upper_eq hq]
  exact (largest_insertionSort (List.length_ofFn)).2 _ (List.mem_ofFn.mpr ⟨i, rfl⟩)

theorem upper_lt (hq : LastQuantile K m alpha) (hc : ∀ i, looPreds i j + looResid i < c) :
    cpJkplusIntervals looPreds looResid alpha j 1 < c := by
  rw [upper_eq hq]
  have hmem := (largest_insertionSort (l := List.ofFn fun i => looPreds i j + looResid i)
    List.length_ofFn).1
  obtain ⟨i, hi⟩ := List.mem_ofFn.mp hmem
  rw [← hi]
  exact hc i

end Ends

/-! ## Exact decompositions -/

open Classical in
/-- Singular value decompositions over the real numbers. -/
noncomputable def exactSvd : SvdOracle ℝ := fun _ _ A =>
  if h : FullColumnRank A then (exists_isSvd h).choose else ⟨0, 0, 0⟩

theorem exactSvd_exact : ExactSvd exactSvd := by
  intro n p A h
  rw [exactSvd, dif_pos h]
  exact (exists_isSvd h).choose_spec

/-! ## One predictor -/

section OnePredictor

variable {x : Matrix (Fin n) (Fin 1) ℝ} {D : Svd ℝ n 2}

/-- Two different values of the predictor suffice. -/
theorem fullColumnRank_of_ne {i j : Fin n} (h : x i 0 ≠ x j 0) :
    FullColumnRank (regAddIntercept x) := by
  intro v w hvw
  have hrow : ∀ k, v 0 + x k 0 * v 1 = w 0 + x k 0 * w 1 := by
    intro k
    have hk := congrFun hvw k
    simpa [mulVec, dotProduct, Fin.sum_univ_two, regAddIntercept] using hk
  have hslope : v 1 = w 1 := by
    have hdiff : (x i 0 - x j 0) * (v 1 - w 1) = 0 := by linear_combination hrow i - hrow j
    exact sub_eq_zero.mp ((mul_eq_zero.mp hdiff).resolve_left (sub_ne_zero.mpr h))
  funext k
  fin_cases k
  · have hi := hrow i
    rw [hslope] at hi
    exact add_right_cancel hi
  · exact hslope

theorem intercept_dotProduct (x : Matrix (Fin n) (Fin 1) ℝ) (i : Fin n) (b : Fin 2 → ℝ) :
    regAddIntercept x i ⬝ᵥ b = b 0 + x i 0 * b 1 := by
  refine (Fin.sum_univ_two _).trans ?_
  simp [regAddIntercept]

theorem gram_intercept (x : Matrix (Fin n) (Fin 1) ℝ) (b : Fin 2 → ℝ) :
    ((regAddIntercept x)ᵀ * regAddIntercept x) *ᵥ b =
      ![n * b 0 + (∑ i, x i 0) * b 1, (∑ i, x i 0) * b 0 + (∑ i, x i 0 * x i 0) * b 1] := by
  funext k
  fin_cases k <;>
  simp [mulVec, dotProduct, mul_apply, Fin.sum_univ_two, regAddIntercept]

/-- The guard against small singular values is not reached. -/
theorem eps_lt_of_gram (h : IsSvd (regAddIntercept x) D)
    (hgram : ∀ b : Fin 2 → ℝ, b 0 * b 0 + b 1 * b 1 ≤
      b 0 * (n * b 0 + (∑ i, x i 0) * b 1) + b 1 * ((∑ i, x i 0) * b 0 +
        (∑ i, x i 0 * x i 0) * b 1)) (j : Fin 2) : eps ℝ < D.s j := by
  have hone : 1 ≤ D.s j * D.s j := by
    apply h.le_mul_self
    intro w
    rw [gram_intercept, one_mul]
    simpa [dotProduct, Fin.sum_univ_two] using hgram w
  have hpos : 1 ≤ D.s j := by
    by_contra hlt
    push Not at hlt
    have hnonneg := h.nonneg j
    nlinarith
  refine lt_of_lt_of_le ?_ hpos
  norm_num [eps]

end OnePredictor


/-! ## Where the guards are not reached -/

/-- The points of a training set with one predictor. -/
def points (a b c d : ℝ) : Matrix (Fin 4) (Fin 1) ℝ := Matrix.of fun i _ => ![a, b, c, d] i

theorem sum_points (f : ℝ → ℝ) (a b c d : ℝ) :
    ∑ i, f (points a b c d i 0) = f a + f b + f c + f d :=
  Fin.sum_univ_four _

/-- Two points at each of two places. -/
def squareX : Matrix (Fin 4) (Fin 1) ℝ := points 1 1 (-1) (-1)

/-- The first point is the only one that is not zero. -/
def indicator : Fin 4 → ℝ := ![1, 0, 0, 0]

/-- The test data. -/
def origin : Matrix (Fin 1) (Fin 1) ℝ := Matrix.of fun _ _ => 0

theorem squareX_sum : ∑ i, squareX i 0 = 0 := by
  simp [Fin.sum_univ_four, squareX, points]

theorem squareX_sq (i : Fin 4) : squareX i 0 * squareX i 0 = 1 := by
  fin_cases i <;> simp [squareX, points]

theorem squareX_rank (i : Fin 4) : FullColumnRank (designWithout squareX i) := by
  refine fullColumnRank_of_ne (i := 0) (j := 2) ?_
  have hne : squareX (i.succAbove 0) 0 ≠ squareX (i.succAbove 2) 0 := by
    fin_cases i
    · change (1 : ℝ) ≠ -1
      norm_num
    · change (1 : ℝ) ≠ -1
      norm_num
    · change (1 : ℝ) ≠ -1
      norm_num
    · change (1 : ℝ) ≠ -1
      norm_num
  exact hne

theorem sum_dropRow (f : ℝ → ℝ) (x : Matrix (Fin (m + 1)) (Fin 1) ℝ) (i : Fin (m + 1)) :
    ∑ j, f (Matrix.of (dropRow x i) j 0) = ∑ j, f (x j 0) - f (x i 0) := by
  rw [Fin.sum_univ_succAbove _ i, add_sub_cancel_left]
  rfl

theorem squareX_aboveGuards : AboveGuards exactSvd squareX := by
  have hfull : IsSvd (regAddIntercept squareX) (exactSvd _ _ (regAddIntercept squareX)) :=
    exactSvd_exact _ _ _ (fullColumnRank_of_without (squareX_rank 0))
  have hsq : ∑ i, squareX i 0 * squareX i 0 = 4 := by
    simp [squareX_sq]
  have hs : ∀ j, eps ℝ < (exactSvd _ _ (regAddIntercept squareX)).s j := by
    apply eps_lt_of_gram hfull
    intro b
    rw [squareX_sum, hsq]
    push_cast
    nlinarith [sq_nonneg (b 0), sq_nonneg (b 1)]
  have hne : ∀ j, (exactSvd _ _ (regAddIntercept squareX)).s j ≠ 0 :=
    fun j => (eps_pos.trans (hs j)).ne'
  refine ⟨hs, ?_, ?_⟩
  · intro i
    apply eps_lt_of_gram (exactSvd_exact _ _ _ (squareX_rank i))
    intro b
    have hsum := sum_dropRow (fun v => v) squareX i
    have hsum2 := sum_dropRow (fun v => v * v) squareX i
    rw [squareX_sum] at hsum
    rw [hsq, squareX_sq] at hsum2
    rw [hsum, hsum2]
    push_cast
    have hi := squareX_sq i
    nlinarith [sq_nonneg (b 0 - squareX i 0 * b 1), sq_nonneg (b 0), sq_nonneg (b 1)]
  · intro i
    have hunique : (exactSvd _ _ (regAddIntercept squareX)).influence
        (regAddIntercept squareX i) = ![1 / 4, squareX i 0 / 4] := by
      refine hfull.unique hne ?_
      have hleft := hfull.influence (a := regAddIntercept squareX i) hne
      unfold Influence at hleft
      rw [add_zero] at hleft
      rw [hleft, gram_intercept, squareX_sum, hsq]
      funext k
      fin_cases k
      · simp [regAddIntercept]
      · simp [regAddIntercept]
        ring
    rw [← hfull.leverage hne i, hunique]
    have hi := squareX_sq i
    have hlev : regAddIntercept squareX i ⬝ᵥ ![1 / 4, squareX i 0 / 4] = 1 / 2 := by
      rw [intercept_dotProduct]
      change (1 : ℝ) / 4 + squareX i 0 * (squareX i 0 / 4) = 1 / 2
      linear_combination hi / 4
    rw [hlev]
    norm_num [eps]


/-- The intervals of these training sets are those of retraining. -/
theorem fast_jackknife_squareX :
    ∃ lm intervals, lmModel exactSvd squareX indicator = .ok lm ∧
      jackknifePlusLm exactSvd lm origin (1 / 5) = .ok intervals ∧
      retrainLm exactSvd squareX indicator origin (1 / 5) = .ok intervals :=
  (fast_jackknife_eq_retraining exactSvd_exact squareX indicator origin (1 / 5) (by decide)
    squareX_rank).1 squareX_aboveGuards

/-! ## Where the intervals differ -/

theorem lastQuantile_fifth : LastQuantile ℝ 3 (1 / 5) := by
  have hraw : (((3 + 1 : ℕ) : ℝ) + 1) * (1 - 1 / 5) = ((4 : ℤ) : ℝ) := by norm_num
  have htrunc : truncate ((4 : ℤ) : ℝ) = 4 := by
    unfold truncate
    rw [if_pos (by norm_num), Int.floor_intCast]
  unfold LastQuantile quantileIndex
  rw [hraw, htrunc, if_neg (lt_irrefl _)]
  rfl

/-- The model without the first point is zero, and the residual of that point is one. -/
theorem one_le_retrained {M : Type}
    {modelFn : Matrix (Fin 3) (Fin 1) ℝ → (Fin 3 → ℝ) → Except Fault M}
    {predictFn : M → (k : ℕ) → Matrix (Fin k) (Fin 1) ℝ → Fin k → ℝ}
    {trainX : Matrix (Fin 4) (Fin 1) ℝ} {model : Fin 4 → M}
    (h : ∀ i, modelFn (Matrix.of (dropRow trainX i)) (dropRow indicator i) = .ok (model i))
    (hzero : ∀ k x, predictFn (model 0) k x = 0) :
    ∃ slow, jackknifePlus modelFn predictFn trainX indicator origin (1 / 5) = .ok slow ∧
      1 ≤ slow 0 1 := by
  refine ⟨_, jackknifePlus_ok h, ?_⟩
  refine le_trans ?_ (le_upper lastQuantile_fifth 0)
  simp [hzero, indicator]

theorem dropRow_indicator (j : Fin 3) : dropRow indicator 0 j = 0 := by
  fin_cases j <;> simp [dropRow, indicator]

/-- One point is far away from the others. -/
def leverX : Matrix (Fin 4) (Fin 1) ℝ := points (10 ^ 8 : ℕ) 1 0 (-1)

theorem leverX_eq : leverX = points (10 ^ 8) 1 0 (-1) := by
  norm_num [leverX]

theorem leverX_rank (i : Fin 4) : FullColumnRank (designWithout leverX i) := by
  refine fullColumnRank_of_ne (i := 0) (j := 1) ?_
  have hne : leverX (i.succAbove 0) 0 ≠ leverX (i.succAbove 1) 0 := by
    rw [leverX_eq]
    fin_cases i
    · change (1 : ℝ) ≠ 0
      norm_num
    · change (10 ^ 8 : ℝ) ≠ 0
      norm_num
    · change (10 ^ 8 : ℝ) ≠ 1
      norm_num
    · change (10 ^ 8 : ℝ) ≠ 1
      norm_num
  exact hne

theorem leverX_gram (b : Fin 2 → ℝ) :
    ((regAddIntercept leverX)ᵀ * regAddIntercept leverX) *ᵥ b =
      ![4 * b 0 + 10 ^ 8 * b 1, 10 ^ 8 * b 0 + (10 ^ 16 + 2) * b 1] := by
  have hsum : ∑ i, leverX i 0 = 10 ^ 8 := by
    rw [leverX_eq, sum_points fun v => v]
    norm_num
  have hsq : ∑ i, leverX i 0 * leverX i 0 = 10 ^ 16 + 2 := by
    rw [leverX_eq, sum_points fun v => v * v]
    norm_num
  rw [gram_intercept, hsum, hsq]
  norm_num

/-- The decomposition of the design matrix. -/
noncomputable def leverSvd : Svd ℝ 4 2 := exactSvd _ _ (regAddIntercept leverX)

theorem leverSvd_exact : IsSvd (regAddIntercept leverX) leverSvd :=
  exactSvd_exact _ _ _ (fullColumnRank_of_without (leverX_rank 0))

theorem leverSvd_guard (j : Fin 2) : eps ℝ < leverSvd.s j := by
  apply eps_lt_of_gram leverSvd_exact
  intro b
  have hrow := leverX_gram b
  rw [gram_intercept] at hrow
  have hfirst := congrFun hrow 0
  have hsecond := congrFun hrow 1
  simp only [cons_val_zero, cons_val_one] at hfirst hsecond
  rw [hfirst, hsecond]
  nlinarith [sq_nonneg (10 ^ 8 * b 1 + b 0), sq_nonneg (b 0), sq_nonneg (b 1)]

theorem leverSvd_ne (j : Fin 2) : leverSvd.s j ≠ 0 :=
  (eps_pos.trans (leverSvd_guard j)).ne'

/-- The determinant of the Gram matrix. -/
def leverDet : ℝ := (3 * 10 ^ 16 + 8 : ℕ)

theorem leverSvd_fit : leverSvd.fit indicator = ![2 / leverDet, 3 * 10 ^ 8 / leverDet] := by
  refine Fits.eq_fit ?_ leverSvd_exact leverSvd_ne
  unfold Fits
  have hright : (regAddIntercept leverX)ᵀ *ᵥ indicator = ![1, 10 ^ 8] := by
    have hentry : ∀ k, ((regAddIntercept leverX)ᵀ *ᵥ indicator) k = regAddIntercept leverX 0 k := by
      intro k
      change ∑ i, regAddIntercept leverX i k * indicator i = _
      simp [Fin.sum_univ_four, indicator]
    funext k
    rw [hentry, leverX_eq]
    fin_cases k <;> rfl
  rw [add_zero, leverX_gram, hright]
  funext k
  fin_cases k <;> norm_num [leverDet]

theorem leverSvd_influence (i : Fin 4) : leverSvd.influence (regAddIntercept leverX i) =
    ![(10 ^ 16 + 2 - 10 ^ 8 * leverX i 0) / leverDet, (4 * leverX i 0 - 10 ^ 8) / leverDet] := by
  refine leverSvd_exact.unique leverSvd_ne ?_
  have hleft := leverSvd_exact.influence (a := regAddIntercept leverX i) leverSvd_ne
  unfold Influence at hleft
  rw [add_zero] at hleft
  rw [hleft, leverX_gram]
  have hdet : leverDet ≠ 0 := by norm_num [leverDet]
  funext k
  fin_cases k
  · change (1 : ℝ) = _
    simp only [Fin.zero_eta, cons_val_zero, cons_val_one]
    field_simp
    rw [leverDet]
    ring
  · change leverX i 0 = _
    simp only [Fin.mk_one, cons_val_zero, cons_val_one]
    field_simp
    rw [leverDet]
    ring

/-- The upper end that `jackknife-plus-lm` computes: the complement of the leverage of the
first point is replaced. -/
theorem leverX_upper : ∃ fast,
    jackknifePlusLm exactSvd (fittedLm exactSvd leverX indicator) origin (1 / 5) = .ok fast ∧
      fast 0 1 < 1 := by
  set lm := fittedLm exactSvd leverX indicator with hlm
  have hdecomp : svdInplace exactSvd lm.xAug = .ok leverSvd := svdInplace_ok (by decide)
  have hcoefs : lm.coefficients = ![2 / leverDet, 3 * 10 ^ 8 / leverDet] :=
    (lmCoefficients_eq leverSvd_guard _).trans leverSvd_fit
  have hres : ∀ i, lm.residuals i =
      indicator i - (2 / leverDet + leverX i 0 * (3 * 10 ^ 8 / leverDet)) := by
    intro i
    change indicator i - regAddIntercept leverX i ⬝ᵥ lm.coefficients = _
    rw [hcoefs, intercept_dotProduct]
    rfl
  have hhat : ∀ i, lm.hatDiag i = (10 ^ 16 + 2 - 10 ^ 8 * leverX i 0) / leverDet +
      leverX i 0 * ((4 * leverX i 0 - 10 ^ 8) / leverDet) := by
    intro i
    change ∑ k, leverSvd.u i k * leverSvd.u i k = _
    rw [← leverSvd_exact.leverage leverSvd_ne i, leverSvd_influence, intercept_dotProduct]
    rfl
  have hcross : ∀ i, crossInfluence (regAddIntercept leverX) (regAddIntercept origin) leverSvd.v
      (lmScale leverSvd) 0 i = (10 ^ 16 + 2 - 10 ^ 8 * leverX i 0) / leverDet := by
    intro i
    rw [crossInfluence_eq (lmScale_eq leverSvd_guard), leverSvd_influence, intercept_dotProduct]
    simp [origin]
  have hpred : lmPredict lm.coefficients origin 0 = 2 / leverDet := by
    change regAddIntercept origin 0 ⬝ᵥ lm.coefficients = _
    rw [hcoefs, intercept_dotProduct]
    simp [origin]
  unfold jackknifePlusLm
  simp only [hdecomp, bind, Except.bind]
  refine ⟨_, rfl, upper_lt lastQuantile_fifth ?_⟩
  intro i
  change lmPredict lm.coefficients origin 0 - crossInfluence (regAddIntercept leverX)
      (regAddIntercept origin) leverSvd.v (lmScale leverSvd) 0 i * (lm.residuals i /
        (if 1 - lm.hatDiag i < eps ℝ then eps ℝ else 1 - lm.hatDiag i)) +
    |lm.residuals i / (if |1 - lm.hatDiag i| < eps ℝ then eps ℝ else 1 - lm.hatDiag i)| < 1
  rw [hpred, hcross, hres, hhat]
  fin_cases i
  · have hx : leverX ((fun i => i) ⟨0, by decide⟩) 0 = 10 ^ 8 := by rw [leverX_eq]; rfl
    have hy : indicator ((fun i => i) ⟨0, by decide⟩) = 1 := rfl
    rw [hx, hy]
    norm_num [leverDet, eps, abs_of_pos]
  · have hx : leverX ((fun i => i) ⟨1, by decide⟩) 0 = 1 := rfl
    have hy : indicator ((fun i => i) ⟨1, by decide⟩) = 0 := rfl
    rw [hx, hy]
    norm_num [leverDet, eps, abs_of_pos]
  · have hx : leverX ((fun i => i) ⟨2, by decide⟩) 0 = 0 := rfl
    have hy : indicator ((fun i => i) ⟨2, by decide⟩) = 0 := rfl
    rw [hx, hy]
    norm_num [leverDet, eps, abs_of_pos]
  · have hx : leverX ((fun i => i) ⟨3, by decide⟩) 0 = -1 := rfl
    have hy : indicator ((fun i => i) ⟨3, by decide⟩) = 0 := rfl
    rw [hx, hy]
    norm_num [leverDet, eps, abs_of_pos]


theorem leverX_retrained : ∃ slow,
    retrainLm exactSvd leverX indicator origin (1 / 5) = .ok slow ∧ 1 ≤ slow 0 1 := by
  refine one_le_retrained (fun i => lmModel_ok (x := Matrix.of (dropRow leverX i))
    (y := dropRow indicator i) (by decide)) ?_
  intro k x
  have hcoefs : (fittedLm exactSvd (Matrix.of (dropRow leverX 0)) (dropRow indicator 0)).coefficients =
      0 := by
    funext l
    change lmCoefficients _ (dropRow indicator 0) l = 0
    simp [lmCoefficients, dropRow_indicator]
  funext j
  rw [hcoefs]
  change ∑ l, regAddIntercept x j l * (0 : ℝ) = 0
  simp

/-- The singular value decomposition of the predictors. -/
noncomputable def squareSvd : Svd ℝ 4 1 := exactSvd _ _ squareX

theorem squareSvd_exact : IsSvd squareX squareSvd := by
  apply exactSvd_exact
  intro v w hvw
  have hrow := congrFun hvw 0
  funext k
  have hk : k = 0 := Subsingleton.elim _ _
  subst hk
  simpa [mulVec, dotProduct, squareX, points] using hrow

theorem squareSvd_v : squareSvd.v 0 0 * squareSvd.v 0 0 = 1 := by
  have hright := congrFun (congrFun squareSvd_exact.right 0) 0
  simpa [mul_apply] using hright

theorem squareSvd_s : squareSvd.s 0 * squareSvd.s 0 = 4 := by
  have hgram := congrFun (congrFun squareSvd_exact.gram 0) 0
  have hentry : squareSvd.v 0 0 * (squareSvd.s 0 * squareSvd.s 0) * squareSvd.v 0 0 = 4 := by
    have hsq : ∑ i, squareX i 0 * squareX i 0 = 4 := by
      simp [squareX_sq]
    rw [← hsq]
    simpa [mul_apply, mul_diagonal] using hgram.symm
  linear_combination hentry - squareSvd.s 0 * squareSvd.s 0 * squareSvd_v

theorem squareSvd_u (i : Fin 4) : squareSvd.u i 0 * squareSvd.s 0 = squareX i 0 * squareSvd.v 0 0 := by
  have hentry := congrFun (congrFun squareSvd_exact.eq i) 0
  have hprod : squareX i 0 = squareSvd.u i 0 * squareSvd.s 0 * squareSvd.v 0 0 := by
    simpa [mul_apply, mul_diagonal] using hentry
  linear_combination (-squareSvd.v 0 0) * hprod - squareSvd.u i 0 * squareSvd.s 0 * squareSvd_v

/-- The upper end that `jackknife-plus-ridge` computes: what the first point contributes
to the mean is left out. -/
theorem squareX_upper : ∃ fast,
    jackknifePlusRidge exactSvd squareX indicator 4 origin (1 / 5) = .ok fast ∧ fast 0 1 < 1 := by
  have hmean : columnMean squareX = 0 := by
    funext j
    have hj : j = 0 := Subsingleton.elim _ _
    subst hj
    change (∑ i, squareX i 0) / _ = 0
    rw [squareX_sum, zero_div]
  have hcenter : centerColumns (columnMean squareX) squareX = squareX := by
    rw [hmean]
    funext i j
    exact sub_zero _
  have hdecomp : svdInplace exactSvd (centerColumns (columnMean squareX) squareX) =
      .ok squareSvd := by
    rw [hcenter]
    exact svdInplace_ok (by decide)
  have hmeanY : mean indicator = 1 / 4 := by
    have hsum : ∑ i, indicator i = 1 := by
      simp [Fin.sum_univ_succ, indicator]
    rw [mean, hsum]
    norm_num
  have hs : squareSvd.s 0 ≠ 0 := by
    intro h
    have hsq := squareSvd_s
    rw [h] at hsq
    norm_num at hsq
  have hbeta : ridgeCoefficients squareSvd 4 (fun i => indicator i - mean indicator) =
      fun _ => 1 / 8 := by
    funext k
    have hk : k = 0 := Subsingleton.elim _ _
    subst hk
    have hsum : (∑ i, squareSvd.u i 0 * (indicator i - mean indicator)) * squareSvd.s 0 =
        squareSvd.v 0 0 := by
      rw [Finset.sum_mul]
      calc ∑ i, squareSvd.u i 0 * (indicator i - mean indicator) * squareSvd.s 0
        _ = ∑ i, squareX i 0 * squareSvd.v 0 0 * (indicator i - 1 / 4) := by
            refine Finset.sum_congr rfl fun i _ => ?_
            rw [← squareSvd_u, hmeanY]
            ring
        _ = squareSvd.v 0 0 := by
            simp [Fin.sum_univ_succ, squareX, points, indicator]
            ring
    change ∑ j, squareSvd.v 0 j * ((∑ i, squareSvd.u i j * (indicator i - mean indicator)) *
      (squareSvd.s j / (squareSvd.s j * squareSvd.s j + 4))) = _
    rw [Fin.sum_univ_one, mul_div_assoc', hsum, squareSvd_s]
    linear_combination squareSvd_v / 8
  have hintercept : ridgeIntercept squareX indicator (fun _ => 1 / 8) = 1 / 4 := by
    rw [ridgeIntercept, hmean, hmeanY]
    simp
  have hhat : ∀ i, ∑ k, squareSvd.u i k * squareSvd.u i k *
      (squareSvd.s k * squareSvd.s k / (squareSvd.s k * squareSvd.s k + 4)) = 1 / 8 := by
    intro i
    have hprod : squareSvd.u i 0 * squareSvd.u i 0 * (squareSvd.s 0 * squareSvd.s 0) = 1 := by
      calc squareSvd.u i 0 * squareSvd.u i 0 * (squareSvd.s 0 * squareSvd.s 0)
        _ = (squareSvd.u i 0 * squareSvd.s 0) * (squareSvd.u i 0 * squareSvd.s 0) := by ring
        _ = (squareX i 0 * squareX i 0) * (squareSvd.v 0 0 * squareSvd.v 0 0) := by
            rw [squareSvd_u]
            ring
        _ = 1 := by rw [squareX_sq, squareSvd_v, one_mul]
    rw [squareSvd_s] at hprod
    rw [Fin.sum_univ_one, squareSvd_s]
    linear_combination hprod / 8
  have hcross : crossInfluence (centerColumns (columnMean squareX) squareX)
      (centerColumns (columnMean squareX) origin) squareSvd.v
      (fun j => 1 / (squareSvd.s j * squareSvd.s j + 4)) = 0 := by
    have htest : centerColumns (columnMean squareX) origin = 0 := by
      rw [hmean]
      funext i j
      exact sub_zero _
    rw [htest]
    funext i j
    simp [crossInfluence]
  unfold jackknifePlusRidge
  simp only [hdecomp, hbeta, hintercept, hcross, hhat, bind, Except.bind]
  refine ⟨_, rfl, upper_lt lastQuantile_fifth ?_⟩
  intro i
  have hguard : ¬ |(1 : ℝ) - 1 / 8| < eps ℝ := by norm_num [eps, abs_of_pos]
  change (1 / 4 + ∑ j, origin 0 j * (1 / 8)) - 0 * ((indicator i -
      (1 / 4 + ∑ j, squareX i j * (1 / 8))) / (if 1 - 1 / 8 < eps ℝ then eps ℝ else 1 - 1 / 8)) +
      |(indicator i - (1 / 4 + ∑ j, squareX i j * (1 / 8))) /
        (if |1 - 1 / 8| < eps ℝ then eps ℝ else 1 - 1 / 8)| < 1
  rw [if_neg hguard, zero_mul, Fin.sum_univ_one, Fin.sum_univ_one, abs_div]
  have hres : |indicator i - (1 / 4 + squareX i 0 * (1 / 8))| ≤ 5 / 8 := by
    fin_cases i
    · change |(1 : ℝ) - (1 / 4 + 1 * (1 / 8))| ≤ 5 / 8
      norm_num [abs_of_pos]
    · change |(0 : ℝ) - (1 / 4 + 1 * (1 / 8))| ≤ 5 / 8
      norm_num [abs_of_pos]
    · change |(0 : ℝ) - (1 / 4 + -1 * (1 / 8))| ≤ 5 / 8
      norm_num [abs_of_pos]
    · change |(0 : ℝ) - (1 / 4 + -1 * (1 / 8))| ≤ 5 / 8
      norm_num [abs_of_pos]
  have hdenom : |(1 : ℝ) - 1 / 8| = 7 / 8 := by norm_num [abs_of_pos]
  have horigin : origin 0 0 = 0 := rfl
  rw [hdenom, horigin]
  linarith

theorem squareX_retrained : ∃ slow,
    retrainRidge exactSvd squareX indicator 4 origin (1 / 5) = .ok slow ∧ 1 ≤ slow 0 1 := by
  have hok : ∀ i, ∃ coefs, ridge exactSvd 4 (Matrix.of (dropRow squareX i)) (dropRow indicator i) =
      .ok coefs := by
    intro i
    unfold ridge
    simp only [svdInplace_ok (show 1 ≤ 3 by decide), bind, Except.bind]
    exact ⟨_, rfl⟩
  choose model hmodel using hok
  refine one_le_retrained hmodel ?_
  have hzero : model 0 = Fin.cons 0 0 :=
    Except.ok.inj ((hmodel 0).symm.trans (ridge_const (by decide) dropRow_indicator))
  intro k x
  rw [hzero]
  funext j
  exact ridgePredict_const x j

/-- **Of two training sets the intervals are not those of retraining**, for the linear
model as a complement of a leverage is replaced, and for ridge regression as the
leverages are too small. -/
theorem fast_jackknife_ne_retraining :
    ExactSvd exactSvd ∧ (∀ i, FullColumnRank (designWithout leverX i)) ∧
      (∀ i, FullColumnRank (designWithout squareX i)) ∧
      (∃ lm fast slow, lmModel exactSvd leverX indicator = .ok lm ∧
        jackknifePlusLm exactSvd lm origin (1 / 5) = .ok fast ∧
        retrainLm exactSvd leverX indicator origin (1 / 5) = .ok slow ∧ fast ≠ slow) ∧
      ∃ fast slow, jackknifePlusRidge exactSvd squareX indicator 4 origin (1 / 5) = .ok fast ∧
        retrainRidge exactSvd squareX indicator 4 origin (1 / 5) = .ok slow ∧ fast ≠ slow := by
  have hdiffer : ∀ {fast slow : Matrix (Fin 1) (Fin 2) ℝ}, fast 0 1 < 1 → 1 ≤ slow 0 1 →
      fast ≠ slow := by
    intro fast slow hfast hslow heq
    rw [heq] at hfast
    exact absurd hslow (not_le.mpr hfast)
  refine ⟨exactSvd_exact, leverX_rank, squareX_rank, ?_, ?_⟩
  · obtain ⟨fast, hfast, hlt⟩ := leverX_upper
    obtain ⟨slow, hslow, hle⟩ := leverX_retrained
    exact ⟨_, fast, slow, lmModel_ok (by decide), hfast, hslow, hdiffer hlt hle⟩
  · obtain ⟨fast, hfast, hlt⟩ := squareX_upper
    obtain ⟨slow, hslow, hle⟩ := squareX_retrained
    exact ⟨fast, slow, hfast, hslow, hdiffer hlt hle⟩

end Lush.Conformal
