import Lush.Learning.KMeans

/-!
# Coordinate descent

`_opt-cd-sweep` minimizes the elastic net objective in one coefficient after the other, by soft
thresholding, and keeps the residual up to date.  The arithmetic is exact, and the weights add up
to the number of the points, as the default weights do: the sums of the code are divided by the
number of the points in one place, and by the sum of the weights in another.

A soft threshold satisfies the inequality of a subgradient (`softThreshold_spec`).  So no update
increases the objective, and coefficients that a sweep leaves alone are a global minimum.
-/

namespace Lush.Learning

variable {K : Type} [Field K] [LinearOrder K] {n p : ℕ}

/-! ## The code -/

/-- `_opt-weighted-col-norms`. -/
def weightedColNorms (n : ℕ) (x : Rows K) (weights : ℕ → K) : ℕ → K := fun j =>
  let wsum := (List.range n).foldl (fun s i => s + weights i) 0
  let s := (List.range n).foldl (fun s i => s + weights i * x i j * x i j) 0
  s / if wsum ≤ 0 then 1 else wsum

/-- `_opt-compute-residual`. -/
def computeResidual (p : ℕ) (x : Rows K) (beta y : ℕ → K) : ℕ → K := fun i =>
  y i - (List.range p).foldl (fun pred j => pred + x i j * beta j) 0

/-- The soft threshold of `_opt-cd-sweep`. -/
def softThreshold (z al denom : K) : K :=
  if z > al then (z - al) / denom else if z < -al then (z + al) / denom else 0

/-- What `_opt-cd-sweep` changes. -/
structure CdState (K : Type) where
  beta : ℕ → K
  residual : ℕ → K
  maxChange : K

/-- The arguments of `_opt-cd-sweep` that do not change. -/
structure Problem (K : Type) where
  n : ℕ
  p : ℕ
  x : Rows K
  y : ℕ → K
  weights : ℕ → K
  alpha : K
  lambda : K

/-- The new value of a coefficient. -/
def newBeta (P : Problem K) (s : CdState K) (j : ℕ) : K :=
  let xwnorm := weightedColNorms P.n P.x P.weights
  let z := (List.range P.n).foldl (fun z i => z + P.weights i * P.x i j * s.residual i) 0 / P.n +
    s.beta j * xwnorm j
  softThreshold z (P.alpha * P.lambda) (xwnorm j + (1 - P.alpha) * P.lambda)

/-- The round of `_opt-cd-sweep` for a coefficient. -/
def cdUpdate (P : Problem K) (s : CdState K) (j : ℕ) : CdState K :=
  let delta := newBeta P s j - s.beta j
  { beta := Function.update s.beta j (newBeta P s j)
    residual := if delta ≠ 0 then fun i => s.residual i - delta * P.x i j else s.residual
    maxChange := if |delta| > s.maxChange then |delta| else s.maxChange }

/-- `_opt-cd-sweep`. -/
def cdSweep (P : Problem K) (s : CdState K) : CdState K :=
  (List.range P.p).foldl (cdUpdate P) { s with maxChange := 0 }

/-- The loop of `coordinate-descent`. -/
def cdLoop (P : Problem K) (tol : K) : ℕ → CdState K → CdState K
  | 0, s => s
  | fuel + 1, s =>
      let s' := cdSweep P s
      if s'.maxChange < tol then s' else cdLoop P tol fuel s'

/-- `coordinate-descent-warm`; `coordinate-descent` begins with zeros. -/
def coordinateDescentWarm (P : Problem K) (beta0 : ℕ → K) (maxIter : ℕ) (tol : K) : ℕ → K :=
  (cdLoop P tol maxIter ⟨beta0, computeResidual P.p P.x beta0 P.y, 0⟩).beta

/-- The objective that `coordinate-descent` is documented to minimize. -/
def objective (P : Problem K) (beta : ℕ → K) : K :=
  1 / (2 * P.n : ℕ) * ∑ i ∈ Finset.range P.n,
      P.weights i * (P.y i - ∑ j ∈ Finset.range P.p, P.x i j * beta j) ^ 2 +
    P.lambda * (P.alpha * ∑ j ∈ Finset.range P.p, |beta j| +
      (1 - P.alpha) / (2 : ℕ) * ∑ j ∈ Finset.range P.p, beta j ^ 2)

/-! ## Soft thresholds -/

variable [IsStrictOrderedRing K]

/-- **A soft threshold** satisfies the inequality of a subgradient. -/
theorem softThreshold_spec {z al denom : K} (hal : 0 ≤ al) (hdenom : 0 ≤ denom)
    (hzero : denom = 0 → |z| ≤ al) (b : K) :
    (z - denom * softThreshold z al denom) * (b - softThreshold z al denom) ≤
      al * (|b| - |softThreshold z al denom|) := by
  have hpos : al < |z| → 0 < denom := fun h =>
    lt_of_le_of_ne hdenom fun heq => absurd (hzero heq.symm) h.not_ge
  unfold softThreshold
  split_ifs with h h'
  · have hd := hpos (h.trans_le (le_abs_self z))
    have hcancel : denom * ((z - al) / denom) = z - al := mul_div_cancel₀ _ hd.ne'
    have hs : 0 ≤ (z - al) / denom := div_nonneg (by linarith) hd.le
    rw [hcancel, abs_of_nonneg hs, sub_sub_cancel]
    exact mul_le_mul_of_nonneg_left (sub_le_sub_right (le_abs_self b) _) hal
  · have hd := hpos (by rw [lt_abs]; right; linarith)
    have hcancel : denom * ((z + al) / denom) = z + al := mul_div_cancel₀ _ hd.ne'
    have hs : (z + al) / denom ≤ 0 := div_nonpos_of_nonpos_of_nonneg (by linarith) hd.le
    rw [hcancel, abs_of_nonpos hs, show z - (z + al) = -al by ring]
    have hb : -b ≤ |b| := neg_le_abs b
    nlinarith
  · have hz : |z| ≤ al := abs_le.mpr ⟨not_lt.mp h', not_lt.mp h⟩
    rw [mul_zero, sub_zero, sub_zero, abs_zero, sub_zero]
    calc z * b ≤ |z * b| := le_abs_self _
      _ = |z| * |b| := abs_mul z b
      _ ≤ al * |b| := mul_le_mul_of_nonneg_right hz (abs_nonneg b)

/-! ## The objective -/

/-- The arguments that the code is made for. -/
structure Problem.Proper (P : Problem K) : Prop where
  points : 0 < P.n
  weights_nonneg : ∀ i < P.n, 0 ≤ P.weights i
  weights_sum : ∑ i ∈ Finset.range P.n, P.weights i = P.n
  alpha_nonneg : 0 ≤ P.alpha
  alpha_le : P.alpha ≤ 1
  lambda_nonneg : 0 ≤ P.lambda

/-- The residual of some coefficients. -/
def resid (P : Problem K) (beta : ℕ → K) (i : ℕ) : K :=
  P.y i - ∑ j ∈ Finset.range P.p, P.x i j * beta j

/-- The slope of the squares in a coefficient. -/
def slope (P : Problem K) (residual : ℕ → K) (j : ℕ) : K :=
  (∑ i ∈ Finset.range P.n, P.weights i * P.x i j * residual i) / P.n

/-- The curvature of the squares in a coefficient. -/
def curvature (P : Problem K) (j : ℕ) : K :=
  (∑ i ∈ Finset.range P.n, P.weights i * P.x i j * P.x i j) / P.n

variable {P : Problem K} {s : CdState K} {beta beta' : ℕ → K} {j : ℕ}

theorem Problem.Proper.cast_pos (h : P.Proper) : (0 : K) < P.n := Nat.cast_pos.mpr h.points

theorem weightedColNorms_eq (h : P.Proper) (j : ℕ) :
    weightedColNorms P.n P.x P.weights j = curvature P j := by
  have hsum : ¬ (P.n : K) ≤ 0 := h.cast_pos.not_ge
  simp only [weightedColNorms, foldl_add, h.weights_sum, if_neg hsum, curvature]

theorem newBeta_eq (h : P.Proper) (s : CdState K) (j : ℕ) : newBeta P s j =
    softThreshold (slope P s.residual j + s.beta j * curvature P j) (P.alpha * P.lambda)
      (curvature P j + (1 - P.alpha) * P.lambda) := by
  simp only [newBeta, foldl_add, weightedColNorms_eq h, slope]

theorem curvature_nonneg (h : P.Proper) (j : ℕ) : 0 ≤ curvature P j := by
  refine div_nonneg (Finset.sum_nonneg fun i hi => ?_) h.cast_pos.le
  rw [mul_assoc]
  exact mul_nonneg (h.weights_nonneg i (Finset.mem_range.mp hi)) (mul_self_nonneg _)

/-- A column without curvature has no slope. -/
theorem slope_eq_zero (h : P.Proper) (hzero : curvature P j = 0) (residual : ℕ → K) :
    slope P residual j = 0 := by
  have hnonneg : ∀ i ∈ Finset.range P.n, 0 ≤ P.weights i * P.x i j * P.x i j := by
    intro i hi
    rw [mul_assoc]
    exact mul_nonneg (h.weights_nonneg i (Finset.mem_range.mp hi)) (mul_self_nonneg _)
  have hsum := (div_eq_zero_iff.mp hzero).resolve_right h.cast_pos.ne'
  have hterms := (Finset.sum_eq_zero_iff_of_nonneg hnonneg).mp hsum
  rw [slope, Finset.sum_eq_zero, zero_div]
  intro i hi
  rcases mul_eq_zero.mp (hterms i hi) with hw | hx
  · rw [hw, zero_mul]
  · rw [hx, mul_zero, zero_mul]

/-- **The new value of a coefficient** satisfies the inequality of a subgradient. -/
theorem newBeta_spec (h : P.Proper) (s : CdState K) (j : ℕ) (b : K) :
    (slope P s.residual j + s.beta j * curvature P j -
        (curvature P j + (1 - P.alpha) * P.lambda) * newBeta P s j) * (b - newBeta P s j) ≤
      P.alpha * P.lambda * (|b| - |newBeta P s j|) := by
  have hridge : 0 ≤ (1 - P.alpha) * P.lambda :=
    mul_nonneg (sub_nonneg.mpr h.alpha_le) h.lambda_nonneg
  have hcurvature := curvature_nonneg h j
  have hal : 0 ≤ P.alpha * P.lambda := mul_nonneg h.alpha_nonneg h.lambda_nonneg
  rw [newBeta_eq h]
  refine softThreshold_spec hal (add_nonneg hcurvature hridge) (fun hzero => ?_) b
  have hflat : curvature P j = 0 := by linarith
  rwa [slope_eq_zero h hflat, hflat, mul_zero, add_zero, abs_zero]

/-- **The objective at other coefficients.** -/
theorem objective_eq (h : P.Proper) (beta beta' : ℕ → K) :
    objective P beta' = objective P beta +
      1 / (2 * P.n) * ∑ i ∈ Finset.range P.n,
        P.weights i * (∑ j ∈ Finset.range P.p, P.x i j * (beta' j - beta j)) ^ 2 +
      ∑ j ∈ Finset.range P.p, (P.alpha * P.lambda * (|beta' j| - |beta j|) +
        (1 - P.alpha) * P.lambda / 2 * (beta' j ^ 2 - beta j ^ 2) -
        (beta' j - beta j) * slope P (resid P beta) j) := by
  have hn := h.cast_pos.ne'
  have hmove : ∀ i, ∑ j ∈ Finset.range P.p, P.x i j * beta' j =
      ∑ j ∈ Finset.range P.p, P.x i j * beta j +
        ∑ j ∈ Finset.range P.p, P.x i j * (beta' j - beta j) := by
    intro i
    rw [← Finset.sum_add_distrib]
    exact Finset.sum_congr rfl fun j _ => by ring
  have hsquares : ∑ i ∈ Finset.range P.n,
        P.weights i * (P.y i - ∑ j ∈ Finset.range P.p, P.x i j * beta' j) ^ 2 =
      ∑ i ∈ Finset.range P.n,
          P.weights i * (P.y i - ∑ j ∈ Finset.range P.p, P.x i j * beta j) ^ 2 +
        ∑ i ∈ Finset.range P.n,
          P.weights i * (∑ j ∈ Finset.range P.p, P.x i j * (beta' j - beta j)) ^ 2 -
        2 * ∑ i ∈ Finset.range P.n, P.weights i * resid P beta i *
          ∑ j ∈ Finset.range P.p, P.x i j * (beta' j - beta j) := by
    rw [Finset.mul_sum, ← Finset.sum_add_distrib, ← Finset.sum_sub_distrib]
    refine Finset.sum_congr rfl fun i _ => ?_
    rw [hmove, resid]
    ring
  have hcross : ∑ i ∈ Finset.range P.n, P.weights i * resid P beta i *
        ∑ j ∈ Finset.range P.p, P.x i j * (beta' j - beta j) =
      P.n * ∑ j ∈ Finset.range P.p, (beta' j - beta j) * slope P (resid P beta) j := by
    have hterm : ∀ j, (P.n : K) * ((beta' j - beta j) * slope P (resid P beta) j) =
        ∑ i ∈ Finset.range P.n, P.weights i * resid P beta i * (P.x i j * (beta' j - beta j)) := by
      intro j
      rw [slope, mul_left_comm, mul_div_cancel₀ _ hn, Finset.mul_sum]
      exact Finset.sum_congr rfl fun i _ => by ring
    simp only [Finset.mul_sum, hterm]
    exact Finset.sum_comm
  rw [objective, objective, hsquares, hcross]
  simp only [Nat.cast_mul, Nat.cast_ofNat, Finset.sum_add_distrib, Finset.sum_sub_distrib, ← Finset.mul_sum]
  field_simp
  ring

/-! ## Updates -/

/-- The residual is that of the coefficients. -/
def Current (P : Problem K) (s : CdState K) : Prop :=
  ∀ i < P.n, s.residual i = resid P s.beta i

omit [LinearOrder K] [IsStrictOrderedRing K] in
theorem slope_congr {residual residual' : ℕ → K} (h : ∀ i < P.n, residual i = residual' i) (j : ℕ) :
    slope P residual j = slope P residual' j := by
  rw [slope, slope]
  congr 1
  exact Finset.sum_congr rfl fun i hi => by rw [h i (Finset.mem_range.mp hi)]

omit [IsStrictOrderedRing K] in
theorem cdUpdate_current (h : Current P s) (hj : j < P.p) : Current P (cdUpdate P s j) := by
  intro i hi
  have hresid : resid P (Function.update s.beta j (newBeta P s j)) i =
      resid P s.beta i - (newBeta P s j - s.beta j) * P.x i j := by
    have hsum : ∑ k ∈ Finset.range P.p, P.x i k * Function.update s.beta j (newBeta P s j) k =
        ∑ k ∈ Finset.range P.p, P.x i k * s.beta k + (newBeta P s j - s.beta j) * P.x i j := by
      rw [← sub_eq_iff_eq_add', ← Finset.sum_sub_distrib,
        Finset.sum_eq_single_of_mem j (Finset.mem_range.mpr hj)]
      · rw [Function.update_self]
        ring
      · intro k _ hk
        rw [Function.update_of_ne hk, sub_self]
    rw [resid, hsum, resid]
    ring
  change (if newBeta P s j - s.beta j ≠ 0 then _ else _ : ℕ → K) i =
    resid P (Function.update s.beta j (newBeta P s j)) i
  rw [hresid, ← h i hi]
  split_ifs with hdelta
  · rfl
  · rw [not_not.mp hdelta, zero_mul, sub_zero]

/-- **An update** does not increase the objective. -/
theorem objective_cdUpdate (hP : P.Proper) (h : Current P s) (hj : j < P.p) :
    objective P (cdUpdate P s j).beta ≤ objective P s.beta := by
  set b := newBeta P s j with hb
  have hn := hP.cast_pos
  have hbeta : (cdUpdate P s j).beta = Function.update s.beta j b := rfl
  have hmoved : ∀ i, ∑ k ∈ Finset.range P.p,
      P.x i k * (Function.update s.beta j b k - s.beta k) = P.x i j * (b - s.beta j) := by
    intro i
    rw [Finset.sum_eq_single_of_mem j (Finset.mem_range.mpr hj), Function.update_self]
    intro k _ hk
    rw [Function.update_of_ne hk, sub_self, mul_zero]
  have hsquares : 1 / (2 * (P.n : K)) * ∑ i ∈ Finset.range P.n,
      P.weights i * (∑ k ∈ Finset.range P.p,
        P.x i k * (Function.update s.beta j b k - s.beta k)) ^ 2 =
      curvature P j / 2 * (b - s.beta j) ^ 2 := by
    have hterm : ∀ i ∈ Finset.range P.n, P.weights i * (P.x i j * (b - s.beta j)) ^ 2 =
        P.weights i * P.x i j * P.x i j * (b - s.beta j) ^ 2 := fun i _ => by ring
    simp only [hmoved]
    rw [Finset.sum_congr rfl hterm, ← Finset.sum_mul, curvature]
    field_simp
  have hslope : slope P (resid P s.beta) j = slope P s.residual j :=
    slope_congr (fun i hi => (h i hi).symm) j
  rw [hbeta, objective_eq hP s.beta, hsquares,
    Finset.sum_eq_single_of_mem j (Finset.mem_range.mpr hj), Function.update_self, hslope]
  · have hspec := newBeta_spec hP s j (s.beta j)
    rw [← hb] at hspec
    have hridge : 0 ≤ (1 - P.alpha) * P.lambda * (b - s.beta j) ^ 2 :=
      mul_nonneg (mul_nonneg (sub_nonneg.mpr hP.alpha_le) hP.lambda_nonneg) (sq_nonneg _)
    have hcurved : 0 ≤ curvature P j * (b - s.beta j) ^ 2 :=
      mul_nonneg (curvature_nonneg hP j) (sq_nonneg _)
    nlinarith
  · intro k _ hk
    rw [Function.update_of_ne hk]
    ring

/-- What a sweep and the loop around it keep. -/
def NotWorse (P : Problem K) (s s' : CdState K) : Prop :=
  Current P s' ∧ objective P s'.beta ≤ objective P s.beta

theorem notWorse_foldl (hP : P.Proper) {l : List ℕ} (hl : ∀ j ∈ l, j < P.p) (h : Current P s) :
    NotWorse P s (l.foldl (cdUpdate P) s) := by
  induction l generalizing s with
  | nil => exact ⟨h, le_rfl⟩
  | cons j l ih =>
      obtain ⟨hj, hl⟩ := List.forall_mem_cons.mp hl
      obtain ⟨hcurrent, hle⟩ := ih hl (cdUpdate_current h hj)
      exact ⟨hcurrent, hle.trans (objective_cdUpdate hP h hj)⟩

/-- **A sweep** does not increase the objective. -/
theorem notWorse_cdSweep (hP : P.Proper) (h : Current P s) : NotWorse P s (cdSweep P s) :=
  have h0 : Current P { s with maxChange := 0 } := h
  notWorse_foldl hP (fun _ hj => List.mem_range.mp hj) h0

theorem notWorse_cdLoop (hP : P.Proper) (tol : K) (fuel : ℕ) (h : Current P s) :
    NotWorse P s (cdLoop P tol fuel s) := by
  induction fuel generalizing s with
  | zero => exact ⟨h, le_rfl⟩
  | succ fuel ih =>
      obtain ⟨hcurrent, hle⟩ := notWorse_cdSweep hP h
      rw [cdLoop]
      split_ifs
      · exact ⟨hcurrent, hle⟩
      · obtain ⟨hcurrent', hle'⟩ := ih hcurrent
        exact ⟨hcurrent', hle'.trans hle⟩

/-! ## Fixed points -/

omit [IsStrictOrderedRing K] in
theorem maxChange_le_foldl (l : List ℕ) (s : CdState K) :
    s.maxChange ≤ (l.foldl (cdUpdate P) s).maxChange := by
  induction l generalizing s with
  | nil => exact le_rfl
  | cons j l ih =>
      refine le_trans ?_ (ih _)
      change s.maxChange ≤ if |newBeta P s j - s.beta j| > s.maxChange then _ else _
      split_ifs with h
      · exact h.le
      · exact le_rfl

/-- A sweep without a change has found every coefficient at its best value. -/
theorem newBeta_of_maxChange {l : List ℕ} (h : (l.foldl (cdUpdate P) s).maxChange ≤ 0) :
    ∀ j ∈ l, newBeta P s j = s.beta j := by
  induction l generalizing s with
  | nil => exact fun j hj => absurd hj List.not_mem_nil
  | cons j l ih =>
      have hmax : (cdUpdate P s j).maxChange ≤ 0 := (maxChange_le_foldl l _).trans h
      have hdelta : newBeta P s j - s.beta j = 0 := by
        change (if |newBeta P s j - s.beta j| > s.maxChange then |newBeta P s j - s.beta j|
          else s.maxChange) ≤ 0 at hmax
        split_ifs at hmax with hlt
        · exact abs_nonpos_iff.mp hmax
        · exact abs_nonpos_iff.mp ((not_lt.mp hlt).trans hmax)
      have hbeta : newBeta P s j = s.beta j := sub_eq_zero.mp hdelta
      refine List.forall_mem_cons.mpr ⟨hbeta, fun k hk => ?_⟩
      have hsame : (cdUpdate P s j).beta = s.beta := by
        change Function.update s.beta j (newBeta P s j) = s.beta
        rw [hbeta, Function.update_eq_self]
      have hresidual : (cdUpdate P s j).residual = s.residual := if_neg (not_not.mpr hdelta)
      have hk' := ih h k hk
      rw [hsame] at hk'
      rw [← hk', newBeta, newBeta, hsame, hresidual]

/-- **Coefficients at their best values** are a global minimum. -/
theorem objective_le_of_fixed (hP : P.Proper) (h : Current P s)
    (hfixed : ∀ j < P.p, newBeta P s j = s.beta j) (beta' : ℕ → K) :
    objective P s.beta ≤ objective P beta' := by
  have hsquares : 0 ≤ 1 / (2 * (P.n : K)) * ∑ i ∈ Finset.range P.n,
      P.weights i * (∑ j ∈ Finset.range P.p, P.x i j * (beta' j - s.beta j)) ^ 2 := by
    have hn := hP.cast_pos
    refine mul_nonneg (by positivity) (Finset.sum_nonneg fun i hi => ?_)
    exact mul_nonneg (hP.weights_nonneg i (Finset.mem_range.mp hi)) (sq_nonneg _)
  have hterms : 0 ≤ ∑ j ∈ Finset.range P.p, (P.alpha * P.lambda * (|beta' j| - |s.beta j|) +
      (1 - P.alpha) * P.lambda / 2 * (beta' j ^ 2 - s.beta j ^ 2) -
      (beta' j - s.beta j) * slope P (resid P s.beta) j) := by
    refine Finset.sum_nonneg fun j hj => ?_
    have hspec := newBeta_spec hP s j (beta' j)
    rw [hfixed j (Finset.mem_range.mp hj), slope_congr h] at hspec
    have hridge : 0 ≤ (1 - P.alpha) * P.lambda * (beta' j - s.beta j) ^ 2 :=
      mul_nonneg (mul_nonneg (sub_nonneg.mpr hP.alpha_le) hP.lambda_nonneg) (sq_nonneg _)
    nlinarith
  rw [objective_eq hP s.beta beta']
  linarith

/-! ## Runs -/

omit [LinearOrder K] [IsStrictOrderedRing K] in
theorem current_computeResidual (P : Problem K) (beta : ℕ → K) :
    Current P ⟨beta, computeResidual P.p P.x beta P.y, 0⟩ := by
  intro i _
  change P.y i - (List.range P.p).foldl (fun pred j => pred + P.x i j * beta j) 0 = _
  rw [foldl_add, resid]

/-- **Coordinate descent** ends with coefficients that are at least as good as the first ones;
and coefficients that a sweep does not change are the best ones. -/
theorem coordinateDescent_descends (hP : P.Proper) (beta0 : ℕ → K) (maxIter : ℕ) (tol : K) :
    objective P (coordinateDescentWarm P beta0 maxIter tol) ≤ objective P beta0 ∧
      ∀ beta, (cdSweep P ⟨beta, computeResidual P.p P.x beta P.y, 0⟩).maxChange = 0 →
        ∀ beta', objective P beta ≤ objective P beta' := by
  refine ⟨(notWorse_cdLoop hP tol maxIter (current_computeResidual P beta0)).2,
    fun beta hzero beta' => ?_⟩
  have hcurrent := current_computeResidual P beta
  exact objective_le_of_fixed hP hcurrent
    (fun j hj => newBeta_of_maxChange hzero.le j (List.mem_range.mpr hj)) beta'

/-- One point with the value 2, and a penalty of the absolute value. -/
def oneLasso : Problem ℚ := ⟨1, 1, fun _ _ => 1, fun _ => 2, fun _ => 1, 1, 1⟩

theorem coordinateDescent_oneLasso :
    objective oneLasso (coordinateDescentWarm oneLasso (fun _ => 0) 10 0) ≤ 2 ∧
      ∀ beta', objective oneLasso (fun _ => 1) ≤ objective oneLasso beta' := by
  have hP : oneLasso.Proper :=
    ⟨by decide, by decide, by decide +kernel, by decide, by decide, by decide⟩
  obtain ⟨hle, hfixed⟩ := coordinateDescent_descends hP (fun _ => 0) 10 0
  exact ⟨hle.trans (by decide +kernel), hfixed _ (by decide +kernel)⟩

end Lush.Learning
