import Lush.Mapper.KolmogorovSmirnov

/-!
# The Mann-Whitney test

`mapper-mann-whitney-u` sorts the two samples together, gives all values of a run of ties the
average of their ranks, and sums the ranks of the first sample.  The average rank of a value
is half of what is below it, what is not above it, and one (`assignRanks_eq`); the ranks
within the first sample sum to the same whatever its values are, so that the statistic counts
the pairs of values of the two samples (`mannWhitney_counts`).
-/

namespace Lush.Mapper

open Insertion Heapsort

variable {K : Type} [Field K] [LinearOrder K]

/-! ## The code -/

/-- `mapper--argsort`, on the array of `n` elements. -/
def argsort (n : ℕ) (arr : ℕ → K) : ℕ → ℕ := insertionSort arr n id

/-- The end of the run of ties that starts at the position `i`, searched from `j` on. -/
def runEnd (n : ℕ) (vals : ℕ → K) (order : ℕ → ℕ) (i j : ℕ) : ℕ :=
  if j < n ∧ vals (order j) = vals (order i) then runEnd n vals order i (j + 1) else j
termination_by n - j

omit [Field K] in
theorem le_runEnd (n : ℕ) (vals : ℕ → K) (order : ℕ → ℕ) (i j : ℕ) :
    j ≤ runEnd n vals order i j := by
  induction j using runEnd.induct n vals order i with
  | case1 j h ih =>
      rw [runEnd, if_pos h]
      omega
  | case2 j h => rw [runEnd, if_neg h]

omit [Field K] in
theorem lt_runEnd {n i : ℕ} (vals : ℕ → K) (order : ℕ → ℕ) (h : i < n) :
    i < runEnd n vals order i i := by
  rw [runEnd, if_pos ⟨h, rfl⟩]
  exact le_runEnd n vals order i (i + 1)

/-- The ranks of the elements at the positions from `i` to `j - 1` are set. -/
def setRanks (order : ℕ → ℕ) (i j : ℕ) (avgRank : K) (ranks : ℕ → K) : ℕ → K :=
  (List.range' i (j - i)).foldl (fun ranks k => Function.update ranks (order k) avgRank) ranks

/-- The loop over the runs of ties. -/
def assignRanks (n : ℕ) (vals : ℕ → K) (order : ℕ → ℕ) (i : ℕ) (ranks : ℕ → K) : ℕ → K :=
  if _h : i < n then
    let j := runEnd n vals order i i
    let avgRank : K := ((i : K) + 1 + j) / (2 : ℕ)
    assignRanks n vals order j (setRanks order i j avgRank ranks)
  else ranks
termination_by n - i
decreasing_by
  have hlt := lt_runEnd vals order _h
  omega

/-- The list that the test returns. -/
structure MannWhitneyResult (K : Type) where
  u : K
  z : K
  pValue : K
  meanA : K
  meanB : K
  diff : K

/-- `mapper-mann-whitney-u`. -/
def mapperMannWhitneyU (sqrt normalCdf : K → K) (n₁ n₂ : ℕ) (x y : ℕ → K) :
    Except Fault (MannWhitneyResult K) :=
  let n := n₁ + n₂
  let m₁ := statMean n₁ x
  let m₂ := statMean n₂ y
  if n₁ < 1 ∨ n₂ < 1 then .error (.error "need at least 1 element per sample")
  else
    let vals : ℕ → K := fun i => if i < n₁ then x i else y (i - n₁)
    let grp : ℕ → ℕ := fun i => if i < n₁ then 0 else 1
    let order := argsort n vals
    let ranks := assignRanks n vals order 0 fun _ => 0
    let r₁ := (List.range n).foldl (fun r₁ i => if grp i = 0 then r₁ + ranks i else r₁) 0
    let u₁ := r₁ - ((n₁ * (n₁ + 1) : ℕ) : K) / (2 : ℕ)
    let mu : K := ((n₁ * n₂ : ℕ) : K) / (2 : ℕ)
    let su := sqrt (((n₁ * n₂ * (n + 1) : ℕ) : K) / (12 : ℕ))
    if su = 0 then .ok ⟨u₁, 0, 1, m₁, m₂, m₁ - m₂⟩
    else
      let z := (u₁ - mu) / su
      let az := if z ≥ 0 then z else 0 - z
      let p := (2 : ℕ) * (1 - normalCdf az)
      .ok ⟨u₁, z, p, m₁, m₂, m₁ - m₂⟩

/-! ## What it is to compute -/

/-- The pairs of values of two samples that are in a relation. -/
def pairCount (r : K → K → Prop) [DecidableRel r] (n₁ n₂ : ℕ) (x y : ℕ → K) : ℕ :=
  ((Finset.range n₁ ×ˢ Finset.range n₂).filter fun p => r (x p.1) (y p.2)).card

/-- The number of pairs in which the first value is greater, and half of those that tie. -/
def uStatistic (n₁ n₂ : ℕ) (x y : ℕ → K) : K :=
  (pairCount (· > ·) n₁ n₂ x y : K) + (pairCount (· = ·) n₁ n₂ x y : K) / (2 : ℕ)

/-! ## Ranks -/

variable {n n₁ n₂ i j : ℕ} {vals x y ranks : ℕ → K} {order : ℕ → ℕ}

/-- The average rank of a value among the values of an array. -/
def averageRank (n : ℕ) (vals : ℕ → K) (v : K) : K :=
  ((Nat.count (fun k => vals k < v) n : K) + 1 + Nat.count (fun k => vals k ≤ v) n) / (2 : ℕ)

theorem count_eq_of_initial {p : ℕ → Prop} [DecidablePred p] (hi : i ≤ n) (hlt : ∀ k < i, p k)
    (hge : ∀ k, i ≤ k → k < n → ¬p k) : Nat.count p n = i := by
  obtain ⟨m, rfl⟩ := Nat.exists_eq_add_of_le hi
  rw [Nat.count_add, Nat.count_iff_forall.mpr hlt,
    Nat.count_iff_forall_not.mpr fun k hk => hge (i + k) (by omega) (by omega), Nat.add_zero]

/-- The positions of a sorted array: its values at an order that is a permutation. -/
structure Ordered (n : ℕ) (vals : ℕ → K) (order : ℕ → ℕ) : Prop where
  sorted : Sorted vals n order
  permuted : Permuted n id order

omit [Field K] in
theorem ordered_argsort (n : ℕ) (vals : ℕ → K) : Ordered n vals (argsort n vals) :=
  ⟨(insertionSort_sorted vals n id).1, (insertionSort_sorted vals n id).2⟩

omit [Field K] in
theorem Ordered.count_eq (h : Ordered n vals order) (p : K → Prop) [DecidablePred p] :
    Nat.count (fun k => p (vals (order k))) n = Nat.count (fun k => p (vals k)) n :=
  count_of_permuted h.permuted fun k => p (vals k)

/-- A run of ties: what is before it is less, and what is after it greater. -/
structure Run (n : ℕ) (vals : ℕ → K) (order : ℕ → ℕ) (i j : ℕ) : Prop where
  lt : i < j
  le : j ≤ n
  before : ∀ k < i, vals (order k) < vals (order i)
  tied : ∀ k, i ≤ k → k < j → vals (order k) = vals (order i)
  after : ∀ k, j ≤ k → k < n → vals (order i) < vals (order k)

omit [Field K] in
theorem runEnd_spec (h : Ordered n vals order) (hj : j ≤ n)
    (htied : ∀ k, i ≤ k → k < j → vals (order k) = vals (order i)) (hij : i ≤ j) :
    runEnd n vals order i j ≤ n ∧
      (∀ k, i ≤ k → k < runEnd n vals order i j → vals (order k) = vals (order i)) ∧
      ∀ k, runEnd n vals order i j ≤ k → k < n → vals (order i) < vals (order k) := by
  induction j using runEnd.induct n vals order i with
  | case1 j hcond ih =>
      rw [runEnd, if_pos hcond]
      refine ih (by omega) (fun k hik hkj => ?_) (by omega)
      rcases Nat.lt_succ_iff_lt_or_eq.mp hkj with hlt | rfl
      · exact htied k hik hlt
      · exact hcond.2
  | case2 j hcond =>
      rw [runEnd, if_neg hcond]
      refine ⟨hj, htied, fun k hjk hk => ?_⟩
      have hne : vals (order i) ≠ vals (order j) := fun heq => hcond ⟨by omega, heq.symm⟩
      calc vals (order i) < vals (order j) := (h.sorted i j hij (by omega)).lt_of_ne hne
        _ ≤ vals (order k) := h.sorted j k hjk hk

omit [Field K] in
theorem run_runEnd (h : Ordered n vals order) (hi : i < n)
    (hbefore : ∀ k < i, vals (order k) < vals (order i)) :
    Run n vals order i (runEnd n vals order i i) := by
  obtain ⟨hle, htied, hafter⟩ := @runEnd_spec K _ n i i vals order h hi.le
    (fun k hik hki => by omega) le_rfl
  exact ⟨lt_runEnd vals order hi, hle, hbefore, htied, hafter⟩

/-- The average of the ranks of a run. -/
theorem Run.averageRank_eq (hrun : Run n vals order i j) (h : Ordered n vals order) :
    averageRank n vals (vals (order i)) = ((i : K) + 1 + j) / (2 : ℕ) := by
  have hless : Nat.count (fun k => vals k < vals (order i)) n = i := by
    rw [← h.count_eq (· < vals (order i))]
    refine count_eq_of_initial (hrun.lt.le.trans hrun.le) hrun.before fun k hik hk => ?_
    exact not_lt.mpr (h.sorted i k hik hk)
  have hleq : Nat.count (fun k => vals k ≤ vals (order i)) n = j := by
    rw [← h.count_eq (· ≤ vals (order i))]
    refine count_eq_of_initial hrun.le (fun k hk => ?_) fun k hjk hk => ?_
    · rcases Nat.lt_or_ge k i with hki | hki
      · exact (hrun.before k hki).le
      · exact (hrun.tied k hki hk).le
    · exact not_le.mpr (hrun.after k hjk hk)
  rw [averageRank, hless, hleq]

/-! ## The loop -/

omit [Field K] [LinearOrder K] in
theorem setRanks_apply (horder : Function.Injective order) (avgRank : K) (k : ℕ) :
    setRanks order i j avgRank ranks (order k) =
      if i ≤ k ∧ k < j then avgRank else ranks (order k) := by
  have hrun : ∀ m, (List.range' i m).foldl
      (fun ranks k => Function.update ranks (order k) avgRank) ranks (order k) =
        if i ≤ k ∧ k < i + m then avgRank else ranks (order k) := by
    intro m
    induction m with
    | zero => rw [if_neg (by omega)]; rfl
    | succ m ih =>
        rw [List.range'_1_concat, List.foldl_append, List.foldl_cons, List.foldl_nil]
        by_cases hk : k = i + m
        · rw [hk, Function.update_self, if_pos (by omega)]
        · rw [Function.update_of_ne (fun heq => hk (horder heq)), ih]
          congr 1
          exact propext (by omega)
  rw [setRanks, hrun]
  congr 1
  exact propext (by omega)

/-- **All values get the average of their ranks.** -/
theorem assignRanks_eq (h : Ordered n vals order) (horder : Function.Injective order)
    (hbefore : i < n → ∀ k < i, vals (order k) < vals (order i))
    (hranks : ∀ k < i, ranks (order k) = averageRank n vals (vals (order k))) :
    ∀ k < n, assignRanks n vals order i ranks (order k) =
      averageRank n vals (vals (order k)) := by
  induction i, ranks using assignRanks.induct n vals order with
  | case1 i ranks hi j avgRank ih =>
      have hrun : Run n vals order i j := run_runEnd h hi (hbefore hi)
      rw [assignRanks, dif_pos hi]
      refine ih (fun hj k hk => ?_) fun k hk => ?_
      · rcases Nat.lt_or_ge k i with hki | hki
        · exact (hbefore hi k hki).trans (hrun.after j le_rfl hj)
        · rw [hrun.tied k hki hk]
          exact hrun.after j le_rfl hj
      · rw [setRanks_apply horder]
        rcases Nat.lt_or_ge k i with hki | hki
        · rw [if_neg (by omega)]
          exact hranks k hki
        · rw [if_pos ⟨hki, hk⟩, hrun.tied k hki hk, hrun.averageRank_eq h]
  | case2 i ranks hi =>
      intro k hk
      rw [assignRanks, dif_neg hi]
      exact hranks k (by omega)

theorem assignRanks_argsort (n : ℕ) (vals : ℕ → K) {k : ℕ} (hk : k < n) :
    assignRanks n vals (argsort n vals) 0 (fun _ => 0) k = averageRank n vals (vals k) := by
  have h := ordered_argsort n vals
  obtain ⟨σ, hσ, heq⟩ := h.permuted
  have horder : argsort n vals = σ := heq
  obtain ⟨l, rfl⟩ := σ.surjective k
  have hl : l < n := by
    by_contra hge
    rw [hσ l (not_lt.mp hge)] at hk
    exact hge hk
  have hrun := @assignRanks_eq K _ _ n 0 vals (fun _ => 0) _ h (horder ▸ σ.injective)
    (fun _ k hk => absurd hk (Nat.not_lt_zero k)) (fun k hk => absurd hk (Nat.not_lt_zero k)) l hl
  rwa [horder] at hrun ⊢

/-! ## Pairs -/

omit [Field K] [LinearOrder K] in
theorem pairCount_eq_sum (r : K → K → Prop) [DecidableRel r] (n₁ n₂ : ℕ) (x y : ℕ → K) :
    pairCount r n₁ n₂ x y = ∑ i ∈ Finset.range n₁, Nat.count (fun j => r (x i) (y j)) n₂ := by
  rw [pairCount, Finset.card_filter, Finset.sum_product]
  refine Finset.sum_congr rfl fun i _ => ?_
  rw [Nat.count_eq_card_filter_range, Finset.card_filter]

omit [Field K] [LinearOrder K] in
/-- Pairs can be counted from both sides. -/
theorem pairCount_swap (r : K → K → Prop) [DecidableRel r] (n₁ n₂ : ℕ) (x y : ℕ → K) :
    pairCount r n₁ n₂ x y = pairCount (fun a b => r b a) n₂ n₁ y x := by
  rw [pairCount, pairCount, Finset.card_filter, Finset.card_filter, Finset.sum_product,
    Finset.sum_product_right]

omit [Field K] in
/-- Two values are in one of the three relations. -/
theorem pairCount_trichotomy (n₁ n₂ : ℕ) (x y : ℕ → K) :
    pairCount (· > ·) n₁ n₂ x y + pairCount (· = ·) n₁ n₂ x y + pairCount (· < ·) n₁ n₂ x y =
      n₁ * n₂ := by
  have hone : ∀ p ∈ Finset.range n₁ ×ˢ Finset.range n₂,
      (if x p.1 > y p.2 then 1 else 0) + (if x p.1 = y p.2 then 1 else 0) +
        (if x p.1 < y p.2 then 1 else 0) = 1 := by
    intro p _
    rcases lt_trichotomy (x p.1) (y p.2) with h | h | h
    · rw [if_neg h.not_gt, if_neg h.ne, if_pos h]
    · rw [if_neg h.not_gt, if_pos h, if_neg h.not_lt]
    · rw [if_pos h, if_neg h.ne', if_neg h.not_gt]
  simp only [pairCount, Finset.card_filter]
  rw [← Finset.sum_add_distrib, ← Finset.sum_add_distrib, Finset.sum_congr rfl hone]
  simp

omit [Field K] in
theorem pairCount_ge (n₁ n₂ : ℕ) (x y : ℕ → K) :
    pairCount (· ≥ ·) n₁ n₂ x y = pairCount (· > ·) n₁ n₂ x y + pairCount (· = ·) n₁ n₂ x y := by
  simp only [pairCount, Finset.card_filter]
  rw [← Finset.sum_add_distrib]
  refine Finset.sum_congr rfl fun p _ => ?_
  rcases lt_trichotomy (x p.1) (y p.2) with h | h | h
  · rw [if_neg h.not_ge, if_neg h.not_gt, if_neg h.ne]
  · rw [if_pos h.ge, if_neg h.not_gt, if_pos h]
  · rw [if_pos h.le, if_pos h, if_neg h.ne']

omit [Field K] in
/-- Within one sample, what is below the values and what is not above them adds up to all
pairs. -/
theorem pairCount_self (n : ℕ) (x : ℕ → K) :
    pairCount (· > ·) n n x x + pairCount (· ≥ ·) n n x x = n * n := by
  have hswap : pairCount (· > ·) n n x x = pairCount (· < ·) n n x x := pairCount_swap _ _ _ _ _
  calc pairCount (· > ·) n n x x + pairCount (· ≥ ·) n n x x
      = pairCount (· < ·) n n x x + pairCount (· ≥ ·) n n x x := by rw [hswap]
    _ = n * n := by
        rw [pairCount_ge, ← pairCount_trichotomy n n x x]
        ring

/-! ## The statistic -/

/-- The samples, one after the other. -/
def combined (n₁ : ℕ) (x y : ℕ → K) : ℕ → K := fun i => if i < n₁ then x i else y (i - n₁)

omit [Field K] [LinearOrder K] in
theorem count_combined (p : K → Prop) [DecidablePred p] (n₁ n₂ : ℕ) (x y : ℕ → K) :
    Nat.count (fun k => p (combined n₁ x y k)) (n₁ + n₂) =
      Nat.count (fun k => p (x k)) n₁ + Nat.count (fun k => p (y k)) n₂ := by
  have hy : ∀ k, combined n₁ x y (n₁ + k) = y k := by
    intro k
    rw [combined, if_neg (by omega), Nat.add_sub_cancel_left]
  rw [Nat.count_add]
  simp only [hy]
  congr 1
  rw [Nat.count_eq_card_filter_range, Nat.count_eq_card_filter_range]
  refine congrArg Finset.card (Finset.filter_congr fun k hk => ?_)
  rw [combined, if_pos (Finset.mem_range.mp hk)]

omit [LinearOrder K] in
/-- The loop over the groups sums what belongs to the first one. -/
theorem foldl_group (n₁ n₂ : ℕ) (ranks : ℕ → K) :
    (List.range (n₁ + n₂)).foldl
        (fun r₁ i => if (if i < n₁ then 0 else 1) = 0 then r₁ + ranks i else r₁) 0 =
      ∑ i ∈ Finset.range n₁, ranks i := by
  have hfold : ∀ n, (List.range n).foldl
      (fun r₁ i => if (if i < n₁ then 0 else 1) = 0 then r₁ + ranks i else r₁) 0 =
        ∑ i ∈ Finset.range n, if i < n₁ then ranks i else 0 := by
    intro n
    induction n with
    | zero => rfl
    | succ n ih =>
        rw [List.range_succ, List.foldl_append, ih, Finset.sum_range_succ]
        by_cases hn : n < n₁ <;> simp [hn]
  rw [hfold, Finset.sum_range_add, Finset.sum_congr rfl fun i hi => if_pos (Finset.mem_range.mp hi)]
  simp

variable [IsStrictOrderedRing K]

/-- The ranks of the first sample, twice. -/
theorem two_mul_sum_averageRank (n₁ n₂ : ℕ) (x y : ℕ → K) :
    2 * ∑ i ∈ Finset.range n₁, averageRank (n₁ + n₂) (combined n₁ x y) (x i) =
      ((n₁ * (n₁ + 1) + 2 * pairCount (· > ·) n₁ n₂ x y + pairCount (· = ·) n₁ n₂ x y : ℕ) : K) := by
  have hrank : ∀ i, 2 * averageRank (n₁ + n₂) (combined n₁ x y) (x i) =
      ((Nat.count (fun k => x k < x i) n₁ + Nat.count (fun k => x k ≤ x i) n₁ +
        (Nat.count (fun k => y k < x i) n₂ + Nat.count (fun k => y k ≤ x i) n₂) + 1 : ℕ) : K) := by
    intro i
    rw [averageRank, count_combined (· < x i), count_combined (· ≤ x i)]
    push_cast
    ring
  have hsum : ∑ i ∈ Finset.range n₁, (Nat.count (fun k => x k < x i) n₁ +
        Nat.count (fun k => x k ≤ x i) n₁ +
        (Nat.count (fun k => y k < x i) n₂ + Nat.count (fun k => y k ≤ x i) n₂) + 1) =
      n₁ * (n₁ + 1) + 2 * pairCount (· > ·) n₁ n₂ x y + pairCount (· = ·) n₁ n₂ x y := by
    simp only [Finset.sum_add_distrib, Finset.sum_const, Finset.card_range, smul_eq_mul, mul_one]
    have hx := pairCount_self n₁ x
    have hy := pairCount_ge n₁ n₂ x y
    simp only [pairCount_eq_sum (· > ·), pairCount_eq_sum (· ≥ ·), gt_iff_lt, ge_iff_le] at hx hy ⊢
    rw [hx, hy]
    ring
  rw [Finset.mul_sum, Finset.sum_congr rfl fun i _ => hrank i, ← Nat.cast_sum, hsum]

/-- The test returns the statistic. -/
theorem exists_mannWhitney (sqrt normalCdf : K → K) (n₁ n₂ : ℕ) (x y : ℕ → K) (h₁ : 0 < n₁)
    (h₂ : 0 < n₂) : ∃ r, mapperMannWhitneyU sqrt normalCdf n₁ n₂ x y = .ok r ∧
      r.u = uStatistic n₁ n₂ x y := by
  have hrun : ∃ r, mapperMannWhitneyU sqrt normalCdf n₁ n₂ x y = .ok r ∧
      r.u = (List.range (n₁ + n₂)).foldl (fun r₁ i => if (if i < n₁ then 0 else 1) = 0 then
        r₁ + assignRanks (n₁ + n₂) (combined n₁ x y) (argsort (n₁ + n₂) (combined n₁ x y)) 0
          (fun _ => 0) i else r₁) 0 - ((n₁ * (n₁ + 1) : ℕ) : K) / (2 : ℕ) := by
    rw [mapperMannWhitneyU]
    simp only [if_neg (show ¬(n₁ < 1 ∨ n₂ < 1) by omega)]
    split_ifs <;> exact ⟨_, rfl, rfl⟩
  obtain ⟨r, hr, hu⟩ := hrun
  refine ⟨r, hr, ?_⟩
  have hranks : ∀ i ∈ Finset.range n₁,
      assignRanks (n₁ + n₂) (combined n₁ x y) (argsort (n₁ + n₂) (combined n₁ x y)) 0
        (fun _ => 0) i = averageRank (n₁ + n₂) (combined n₁ x y) (x i) := by
    intro i hi
    have hlt := Finset.mem_range.mp hi
    rw [assignRanks_argsort _ _ (by omega)]
    congr 1
    exact if_pos hlt
  have htwo := two_mul_sum_averageRank n₁ n₂ x y
  rw [foldl_group, Finset.sum_congr rfl hranks] at hu
  rw [hu, uStatistic]
  push_cast at htwo ⊢
  linear_combination htwo / 2

/-- The two statistics cover all pairs. -/
theorem uStatistic_add (n₁ n₂ : ℕ) (x y : ℕ → K) :
    uStatistic n₁ n₂ x y + uStatistic n₂ n₁ y x = (n₁ * n₂ : ℕ) := by
  have hgt : pairCount (· > ·) n₂ n₁ y x = pairCount (· < ·) n₁ n₂ x y := pairCount_swap _ _ _ _ _
  have heq : pairCount (· = ·) n₂ n₁ y x = pairCount (· = ·) n₁ n₂ x y := by
    rw [pairCount_swap]
    simp only [eq_comm]
  rw [← pairCount_trichotomy n₁ n₂ x y, uStatistic, uStatistic, hgt, heq]
  push_cast
  ring

/-- **The statistic counts pairs**, and so the two statistics of two samples sum to the number
of pairs. -/
theorem mannWhitney_counts (sqrt normalCdf : K → K) (n₁ n₂ : ℕ) (x y : ℕ → K) (h₁ : 0 < n₁)
    (h₂ : 0 < n₂) :
    ∃ r r', mapperMannWhitneyU sqrt normalCdf n₁ n₂ x y = .ok r ∧
      mapperMannWhitneyU sqrt normalCdf n₂ n₁ y x = .ok r' ∧ r.u = uStatistic n₁ n₂ x y ∧
      r.u + r'.u = (n₁ * n₂ : ℕ) := by
  obtain ⟨r, hr, hu⟩ := exists_mannWhitney sqrt normalCdf n₁ n₂ x y h₁ h₂
  obtain ⟨r', hr', hu'⟩ := exists_mannWhitney sqrt normalCdf n₂ n₁ y x h₂ h₁
  refine ⟨r, r', hr, hr', hu, ?_⟩
  rw [hu, hu', uStatistic_add]

/-- The sample `0, 1`. -/
def zeroOne : ℕ → ℚ := fun i => i

theorem mannWhitney_counts_zeroOne :
    ∃ r r', mapperMannWhitneyU id id 2 1 zeroOne (fun _ => 1) = .ok r ∧
      mapperMannWhitneyU id id 1 2 (fun _ => 1) zeroOne = .ok r' ∧
      r.u = uStatistic 2 1 zeroOne (fun _ => 1) ∧ r.u + r'.u = (2 * 1 : ℕ) :=
  mannWhitney_counts id id 2 1 zeroOne (fun _ => 1) Nat.two_pos Nat.one_pos

end Lush.Mapper
