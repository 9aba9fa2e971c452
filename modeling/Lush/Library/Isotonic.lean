import Mathlib

/-!
# Isotonic regression

The values `y j` have positive weights `w j`.  An interval is pooled when no initial part of
it has a mean that is less than its own, and a vector that is constant on consecutive pooled
intervals, with their means in ascending order, is a `Fit`.

A fit is given by the formula of the greatest least mean (`Fit.eq_maxMin`), and it is the
only vector in ascending order that has the least squared distance from `y`
(`Fit.cost_le`, `Fit.unique`).
-/

namespace Lush.Isotonic

open Finset

variable {K : Type} [Field K]

/-! ## Means -/

/-- The weight of an interval. -/
def weight (w : ℕ → K) (s e : ℕ) : K := ∑ j ∈ Ico s e, w j

/-- The weighted sum of an interval. -/
def total (y w : ℕ → K) (s e : ℕ) : K := ∑ j ∈ Ico s e, y j * w j

/-- The weighted mean of an interval. -/
def mean (y w : ℕ → K) (s e : ℕ) : K := total y w s e / weight w s e

/-- How much the weighted sum of an interval is above that of a constant. -/
def excess (y w : ℕ → K) (c : K) (s e : ℕ) : K := ∑ j ∈ Ico s e, (y j - c) * w j

variable {y w : ℕ → K} {s m e n i a b : ℕ} {c c' : K}

theorem excess_eq (y w : ℕ → K) (c : K) (s e : ℕ) :
    excess y w c s e = total y w s e - c * weight w s e := by
  rw [excess, total, weight, mul_sum, ← sum_sub_distrib]
  exact sum_congr rfl fun j _ => sub_mul _ _ _

theorem excess_add (y w : ℕ → K) (c : K) (hs : s ≤ m) (hm : m ≤ e) :
    excess y w c s m + excess y w c m e = excess y w c s e :=
  sum_Ico_consecutive _ hs hm

@[simp] theorem excess_self (y w : ℕ → K) (c : K) (s : ℕ) : excess y w c s s = 0 := by
  simp [excess]

variable [LinearOrder K] [IsStrictOrderedRing K]

theorem weight_pos (hw : ∀ j < n, 0 < w j) (hs : s < e) (he : e ≤ n) : 0 < weight w s e := by
  apply sum_pos
  · exact fun j hj => hw j ((mem_Ico.mp hj).2.trans_le he)
  · exact nonempty_Ico.mpr hs

theorem mean_le_iff (hw : ∀ j < n, 0 < w j) (hs : s < e) (he : e ≤ n) :
    mean y w s e ≤ c ↔ excess y w c s e ≤ 0 := by
  rw [mean, div_le_iff₀ (weight_pos hw hs he), excess_eq, sub_nonpos]

theorem le_mean_iff (hw : ∀ j < n, 0 < w j) (hs : s < e) (he : e ≤ n) :
    c ≤ mean y w s e ↔ 0 ≤ excess y w c s e := by
  rw [mean, le_div_iff₀ (weight_pos hw hs he), excess_eq, sub_nonneg]

theorem excess_mean (hw : ∀ j < n, 0 < w j) (hs : s < e) (he : e ≤ n) :
    excess y w (mean y w s e) s e = 0 := by
  rw [excess_eq, mean, div_mul_cancel₀ _ (weight_pos hw hs he).ne', sub_self]

theorem excess_anti (hw : ∀ j < n, 0 < w j) (he : e ≤ n) (hc : c ≤ c') :
    excess y w c' s e ≤ excess y w c s e := by
  apply sum_le_sum
  intro j hj
  have hpos : 0 < w j := hw j ((mem_Ico.mp hj).2.trans_le he)
  exact mul_le_mul_of_nonneg_right (sub_le_sub_left hc _) hpos.le

/-! ## Pooled intervals -/

/-- No initial part of the interval has a mean that is less than its own. -/
structure Pooled (y w : ℕ → K) (s e : ℕ) : Prop where
  lt : s < e
  initial : ∀ b, s ≤ b → b ≤ e → 0 ≤ excess y w (mean y w s e) s b

/-- An interval of one element. -/
theorem pooled_single (hw : ∀ j < n, 0 < w j) (hs : s < n) : Pooled y w s (s + 1) := by
  refine ⟨Nat.lt_succ_self s, fun b hsb hb => ?_⟩
  rcases Nat.lt_or_ge s b with hlt | hge
  · obtain rfl : b = s + 1 := by omega
    exact (excess_mean hw (Nat.lt_succ_self s) hs).ge
  · obtain rfl : b = s := by omega
    exact (excess_self y w _ b).ge

theorem Pooled.final (h : Pooled y w s e) (hw : ∀ j < n, 0 < w j) (he : e ≤ n) (hb : s ≤ b)
    (hbe : b ≤ e) : excess y w (mean y w s e) b e ≤ 0 := by
  have hadd := excess_add y w (mean y w s e) hb hbe
  rw [excess_mean hw h.lt he] at hadd
  have hinitial := h.initial b hb hbe
  linarith

/-- **Two intervals that violate the order are pooled.** -/
theorem Pooled.merge (h : Pooled y w s m) (h' : Pooled y w m e) (hw : ∀ j < n, 0 < w j)
    (he : e ≤ n) (hlt : mean y w m e < mean y w s m) : Pooled y w s e := by
  have hse : s < e := h.lt.trans h'.lt
  have hmn : m ≤ n := h'.lt.le.trans he
  -- the mean of both is between their means
  have hle : mean y w s e ≤ mean y w s m := by
    rw [mean_le_iff hw hse he, ← excess_add y w _ h.lt.le h'.lt.le, excess_mean hw h.lt hmn,
      zero_add, ← mean_le_iff hw h'.lt he]
    exact hlt.le
  have hge : mean y w m e ≤ mean y w s e := by
    rw [le_mean_iff hw hse he, ← excess_add y w _ h.lt.le h'.lt.le, excess_mean hw h'.lt he,
      add_zero, ← le_mean_iff hw h.lt hmn]
    exact hlt.le
  refine ⟨hse, fun b hsb hbe => ?_⟩
  rcases Nat.le_total b m with hbm | hmb
  · exact (h.initial b hsb hbm).trans (excess_anti hw (hbm.trans hmn) hle)
  · have hfinal := h'.final hw he hmb hbe
    have hanti : excess y w (mean y w s e) b e ≤ excess y w (mean y w m e) b e :=
      excess_anti hw he hge
    have hadd := excess_add y w (mean y w s e) hsb hbe
    rw [excess_mean hw hse he] at hadd
    linarith

/-! ## Fits -/

/-- The first `e` entries of `z` are the means of consecutive pooled intervals, in ascending
order. -/
inductive Fit (y w z : ℕ → K) : ℕ → Prop
  | zero : Fit y w z 0
  | block {s e : ℕ} (h : Fit y w z s) (hpool : Pooled y w s e)
      (hval : ∀ j, s ≤ j → j < e → z j = mean y w s e) (hle : ∀ j < s, z j ≤ mean y w s e) :
      Fit y w z e

variable {z z' : ℕ → K}

omit [IsStrictOrderedRing K] in
theorem Fit.congr (h : Fit y w z e) (hz : ∀ j < e, z' j = z j) : Fit y w z' e := by
  induction h with
  | zero => exact .zero
  | block h hpool hval hle ih =>
      refine .block (ih fun j hj => hz j (hj.trans hpool.lt)) hpool (fun j hj hje => ?_)
        fun j hj => ?_
      · rw [hz j hje, hval j hj hje]
      · rw [hz j (hj.trans hpool.lt)]
        exact hle j hj

omit [IsStrictOrderedRing K] in
theorem Fit.mono (h : Fit y w z e) : ∀ i j, i ≤ j → j < e → z i ≤ z j := by
  induction h with
  | zero => exact fun i j _ hj => absurd hj (Nat.not_lt_zero j)
  | @block s e h hpool hval hle ih =>
      intro i j hij hj
      rcases Nat.lt_or_ge j s with hjs | hjs
      · exact ih i j hij hjs
      · rw [hval j hjs hj]
        rcases Nat.lt_or_ge i s with his | his
        · exact hle i his
        · exact (hval i his (hij.trans_lt hj)).le

/-- From some element on, no mean is less than the value of the fit. -/
theorem Fit.lower (h : Fit y w z e) (hw : ∀ j < n, 0 < w j) (he : e ≤ n) :
    ∀ i < e, ∃ a ≤ i, ∀ b, i < b → b ≤ e → 0 ≤ excess y w (z i) a b := by
  induction h with
  | zero => exact fun i hi => absurd hi (Nat.not_lt_zero i)
  | @block s e h hpool hval hle ih =>
      intro i hi
      rcases Nat.lt_or_ge i s with his | his
      · obtain ⟨a, hai, ha⟩ := ih (hpool.lt.le.trans he) i his
        refine ⟨a, hai, fun b hib hbe => ?_⟩
        rcases Nat.le_total b s with hbs | hsb
        · exact ha b hib hbs
        · have hfirst := ha s his le_rfl
          have hrest : 0 ≤ excess y w (z i) s b :=
            (hpool.initial b hsb hbe).trans (excess_anti hw (hbe.trans he) (hle i his))
          rw [← excess_add y w _ (hai.trans his.le) hsb]
          exact add_nonneg hfirst hrest
      · refine ⟨s, his, fun b hib hbe => ?_⟩
        rw [hval i his hi]
        exact hpool.initial b (his.trans hib.le) hbe

/-- The last elements have no greater mean than a bound of the fit. -/
theorem Fit.excess_le (h : Fit y w z e) (hw : ∀ j < n, 0 < w j) (he : e ≤ n)
    (hc : ∀ j < e, z j ≤ c) : ∀ a ≤ e, excess y w c a e ≤ 0 := by
  induction h with
  | zero =>
      intro a ha
      obtain rfl : a = 0 := by omega
      simp
  | @block s e h hpool hval hle ih =>
      have hmean : mean y w s e ≤ c := by
        rw [← hval s le_rfl hpool.lt]
        exact hc s hpool.lt
      intro a ha
      rcases Nat.lt_or_ge a s with has | has
      · have hfirst := ih (hpool.lt.le.trans he) (fun j hj => hc j (hj.trans hpool.lt)) a has.le
        have hrest := (mean_le_iff hw hpool.lt he).mp hmean
        rw [← excess_add y w c has.le hpool.lt.le]
        exact add_nonpos hfirst hrest
      · exact (excess_anti hw he hmean).trans (hpool.final hw he has ha)

/-- Up to some element, no mean is greater than the value of the fit. -/
theorem Fit.upper (h : Fit y w z e) (hw : ∀ j < n, 0 < w j) (he : e ≤ n) :
    ∀ i < e, ∃ b, i < b ∧ b ≤ e ∧ ∀ a ≤ i, excess y w (z i) a b ≤ 0 := by
  induction h with
  | zero => exact fun i hi => absurd hi (Nat.not_lt_zero i)
  | @block s e h hpool hval hle ih =>
      intro i hi
      rcases Nat.lt_or_ge i s with his | his
      · obtain ⟨b, hib, hbs, hb⟩ := ih (hpool.lt.le.trans he) i his
        exact ⟨b, hib, hbs.trans hpool.lt.le, hb⟩
      · have hfit : Fit y w z e := .block h hpool hval hle
        refine ⟨e, hi, le_rfl, fun a ha => hfit.excess_le hw he (fun j hj => ?_) a (ha.trans hi.le)⟩
        rw [hval i his hi]
        rcases Nat.lt_or_ge j s with hjs | hjs
        · exact hle j hjs
        · exact (hval j hjs hj).le

/-! ## The formula -/

/-- The greatest, over the intervals that begin at or before `i`, of the least mean of one
that ends at or after it. -/
def maxMin (y w : ℕ → K) (n i : ℕ) (hi : i < n) : K :=
  (range (i + 1)).sup' ⟨i, self_mem_range_succ i⟩ fun a =>
    (Ico i n).inf' ⟨i, left_mem_Ico.mpr hi⟩ fun b => mean y w a (b + 1)

/-- **The formula of the greatest least mean.** -/
theorem Fit.eq_maxMin (h : Fit y w z n) (hw : ∀ j < n, 0 < w j) (hi : i < n) :
    z i = maxMin y w n i hi := by
  apply le_antisymm
  · obtain ⟨a, hai, ha⟩ := h.lower hw le_rfl i hi
    apply le_sup'_of_le _ (mem_range_succ_iff.mpr hai)
    apply le_inf'
    intro b hb
    obtain ⟨hib, hbn⟩ := mem_Ico.mp hb
    rw [le_mean_iff hw (by omega) hbn]
    exact ha (b + 1) (by omega) hbn
  · obtain ⟨b, hib, hbn, hb⟩ := h.upper hw le_rfl i hi
    apply sup'_le
    intro a ha
    have hai : a ≤ i := mem_range_succ_iff.mp ha
    apply inf'_le_of_le _ (mem_Ico.mpr ⟨Nat.le_sub_one_of_lt hib, by omega⟩)
    rw [mean_le_iff hw (by omega) (by omega), Nat.sub_add_cancel (by omega)]
    exact hb a hai

theorem mean_mono {y' : ℕ → K} (hw : ∀ j < n, 0 < w j) (hs : s < e) (he : e ≤ n)
    (hy : ∀ j < n, y j ≤ y' j) : mean y w s e ≤ mean y' w s e := by
  apply div_le_div_of_nonneg_right _ (weight_pos hw hs he).le
  apply sum_le_sum
  intro j hj
  have hjn : j < n := (mem_Ico.mp hj).2.trans_le he
  exact mul_le_mul_of_nonneg_right (hy j hjn) (hw j hjn).le

/-- Greater values have greater means. -/
theorem maxMin_mono {y' : ℕ → K} (hw : ∀ j < n, 0 < w j) (hy : ∀ j < n, y j ≤ y' j)
    (hi : i < n) : maxMin y w n i hi ≤ maxMin y' w n i hi := by
  apply sup'_le
  intro a ha
  have hai : a ≤ i := mem_range_succ_iff.mp ha
  apply le_sup'_of_le _ ha
  apply le_inf'
  intro b hb
  obtain ⟨hib, hbn⟩ := mem_Ico.mp hb
  exact (inf'_le _ hb).trans (mean_mono hw (by omega) hbn hy)

/-- Values that are all equal. -/
theorem maxMin_const (hw : ∀ j < n, 0 < w j) (c : K) (hi : i < n) :
    maxMin (fun _ => c) w n i hi = c := by
  have hmean : ∀ a b, a ≤ i → i ≤ b → b < n → mean (fun _ => c) w a (b + 1) = c := by
    intro a b hai hib hbn
    have hpos := weight_pos hw (show a < b + 1 by omega) (show b + 1 ≤ n by omega)
    rw [mean, total, ← mul_sum, ← weight, mul_div_cancel_right₀ _ hpos.ne']
  apply le_antisymm
  · apply sup'_le
    intro a ha
    apply inf'_le_of_le _ (left_mem_Ico.mpr hi)
    exact (hmean a i (mem_range_succ_iff.mp ha) le_rfl hi).le
  · apply le_sup'_of_le _ (self_mem_range_succ i)
    apply le_inf'
    intro b hb
    obtain ⟨hib, hbn⟩ := mem_Ico.mp hb
    exact (hmean i b le_rfl hib hbn).ge

/-! ## Least squares -/

/-- The weighted squared distance of the first `n` values. -/
def cost (y w z : ℕ → K) (n : ℕ) : K := ∑ j ∈ range n, w j * (z j - y j) ^ 2

/-- What is left of a value, with its weight. -/
def residual (y w z : ℕ → K) (j : ℕ) : K := w j * (z j - y j)

omit [LinearOrder K] [IsStrictOrderedRing K] in
/-- The residuals of a pooled interval. -/
theorem sum_residual_block (hval : ∀ j, s ≤ j → j < e → z j = c) (hbe : b ≤ e) :
    ∑ j ∈ Ico s b, residual y w z j = -excess y w c s b := by
  rw [excess, ← sum_neg_distrib]
  apply sum_congr rfl
  intro j hj
  obtain ⟨hsj, hjb⟩ := mem_Ico.mp hj
  rw [residual, hval j hsj (hjb.trans_le hbe)]
  ring

theorem Fit.sum_residual (h : Fit y w z e) (hw : ∀ j < n, 0 < w j) (he : e ≤ n) :
    ∑ j ∈ range e, residual y w z j = 0 := by
  induction h with
  | zero => exact sum_range_zero _
  | @block s e h hpool hval hle ih =>
      rw [← sum_range_add_sum_Ico _ hpool.lt.le, ih (hpool.lt.le.trans he),
        sum_residual_block hval le_rfl, excess_mean hw hpool.lt he, neg_zero, add_zero]

/-- No initial sum of the residuals is positive. -/
theorem Fit.sum_residual_le (h : Fit y w z e) (hw : ∀ j < n, 0 < w j) (he : e ≤ n) :
    ∀ b ≤ e, ∑ j ∈ range b, residual y w z j ≤ 0 := by
  induction h with
  | zero =>
      intro b hb
      obtain rfl : b = 0 := by omega
      exact (sum_range_zero _).le
  | @block s e h hpool hval hle ih =>
      have hsn : s ≤ n := hpool.lt.le.trans he
      intro b hb
      rcases Nat.le_total b s with hbs | hsb
      · exact ih hsn b hbs
      · rw [← sum_range_add_sum_Ico _ hsb, h.sum_residual hw hsn, sum_residual_block hval hb,
          zero_add, neg_nonpos]
        exact hpool.initial b hsb hb

/-- The residuals are orthogonal to the fit. -/
theorem Fit.sum_mul_residual (h : Fit y w z e) (hw : ∀ j < n, 0 < w j) (he : e ≤ n) :
    ∑ j ∈ range e, z j * residual y w z j = 0 := by
  induction h with
  | zero => exact sum_range_zero _
  | @block s e h hpool hval hle ih =>
      have hblock : ∑ j ∈ Ico s e, z j * residual y w z j =
          mean y w s e * ∑ j ∈ Ico s e, residual y w z j := by
        rw [mul_sum]
        apply sum_congr rfl
        intro j hj
        obtain ⟨hsj, hje⟩ := mem_Ico.mp hj
        rw [hval j hsj hje]
      rw [← sum_range_add_sum_Ico _ hpool.lt.le, ih (hpool.lt.le.trans he), hblock,
        sum_residual_block hval le_rfl, excess_mean hw hpool.lt he, neg_zero, mul_zero, add_zero]

/-- A sum by parts: an ascending vector against terms with no positive initial sum. -/
theorem le_sum_mul {f : ℕ → K} (hz : ∀ i j, i ≤ j → j < n + 1 → z i ≤ z j)
    (hf : ∀ b ≤ n + 1, ∑ j ∈ range b, f j ≤ 0) :
    z n * ∑ j ∈ range (n + 1), f j ≤ ∑ j ∈ range (n + 1), z j * f j := by
  induction n with
  | zero => simp
  | succ n ih =>
      have hih := ih (fun i j hij hj => hz i j hij (by omega)) fun b hb => hf b (by omega)
      have hstep : z (n + 1) * ∑ j ∈ range (n + 1), f j ≤ z n * ∑ j ∈ range (n + 1), f j :=
        mul_le_mul_of_nonpos_right (hz n (n + 1) n.le_succ (by omega)) (hf (n + 1) (by omega))
      rw [sum_range_succ _ (n + 1), sum_range_succ _ (n + 1), mul_add]
      linarith

theorem Fit.sum_mul_residual_nonneg (h : Fit y w z n) (hw : ∀ j < n, 0 < w j)
    (hz' : ∀ i j, i ≤ j → j < n → z' i ≤ z' j) :
    0 ≤ ∑ j ∈ range n, z' j * residual y w z j := by
  cases n with
  | zero => exact (sum_range_zero _).ge
  | succ n =>
      have hle := le_sum_mul (f := residual y w z) hz' (h.sum_residual_le hw le_rfl)
      rwa [h.sum_residual hw le_rfl, mul_zero] at hle

/-- **A fit is nearest**, and every other vector in ascending order is farther by its
distance from the fit. -/
theorem Fit.cost_add_le (h : Fit y w z n) (hw : ∀ j < n, 0 < w j)
    (hz' : ∀ i j, i ≤ j → j < n → z' i ≤ z' j) :
    cost y w z n + ∑ j ∈ range n, w j * (z' j - z j) ^ 2 ≤ cost y w z' n := by
  have hcross : 0 ≤ ∑ j ∈ range n, (z' j - z j) * residual y w z j := by
    simp only [sub_mul, sum_sub_distrib]
    rw [h.sum_mul_residual hw le_rfl, sub_zero]
    exact h.sum_mul_residual_nonneg hw hz'
  have hsplit : cost y w z' n = cost y w z n + ∑ j ∈ range n, w j * (z' j - z j) ^ 2 +
      (∑ j ∈ range n, (z' j - z j) * residual y w z j +
        ∑ j ∈ range n, (z' j - z j) * residual y w z j) := by
    simp only [cost, residual, ← sum_add_distrib]
    apply sum_congr rfl
    intro j _
    ring
  linarith

theorem Fit.cost_le (h : Fit y w z n) (hw : ∀ j < n, 0 < w j)
    (hz' : ∀ i j, i ≤ j → j < n → z' i ≤ z' j) : cost y w z n ≤ cost y w z' n := by
  have hadd := h.cost_add_le hw hz'
  have hdist : 0 ≤ ∑ j ∈ range n, w j * (z' j - z j) ^ 2 :=
    sum_nonneg fun j hj => mul_nonneg (hw j (mem_range.mp hj)).le (sq_nonneg _)
  linarith

/-- **Only the fit is nearest.** -/
theorem Fit.unique (h : Fit y w z n) (hw : ∀ j < n, 0 < w j)
    (hz' : ∀ i j, i ≤ j → j < n → z' i ≤ z' j) (hcost : cost y w z' n ≤ cost y w z n) :
    ∀ j < n, z' j = z j := by
  have hadd := h.cost_add_le hw hz'
  have hterm : ∀ j ∈ range n, 0 ≤ w j * (z' j - z j) ^ 2 :=
    fun j hj => mul_nonneg (hw j (mem_range.mp hj)).le (sq_nonneg _)
  have hdist : ∑ j ∈ range n, w j * (z' j - z j) ^ 2 = 0 :=
    le_antisymm (by linarith) (sum_nonneg hterm)
  intro j hj
  have hzero := (sum_eq_zero_iff_of_nonneg hterm).mp hdist j (mem_range.mpr hj)
  have hsq : (z' j - z j) ^ 2 = 0 := (mul_eq_zero.mp hzero).resolve_left (hw j hj).ne'
  exact sub_eq_zero.mp (pow_eq_zero_iff (by decide) |>.mp hsq)

end Lush.Isotonic
