import Lush.Basic
import Lush.Library.SimpleSorts
import Lush.Library.JointWalk

/-!
# The Kolmogorov-Smirnov test

`mapper-ks-test` walks along the two sorted samples, and measures the gap between the two
distribution functions after each step.  Where a value comes in both samples, a step passes
one copy in each of them; so the walk also measures between the copies of a value, where
there is nothing to measure.  The greatest of these gaps is the one at which the pairs of
copies have been passed (`cornerGap`), and the statistic is right when no such gap is greater
than all gaps of the distribution functions (`exact_iff`).
-/

namespace Lush.Mapper

open Insertion JointWalk Heapsort

variable {K : Type} [Field K] [LinearOrder K]

/-! ## The code -/

/-- `mapper--sort-double`, on the array of `n` elements. -/
def sortDouble (n : ℕ) (arr : ℕ → K) : ℕ → K := insertionSort id n arr

/-- `mapper-stat-mean`. -/
def statMean (n : ℕ) (arr : ℕ → K) : K := (List.range n).foldl (fun s i => s + arr i) 0 / n

/-- `1e300`, which stands for the values after the end of a sample. -/
def sentinel (K : Type) [Field K] : K := ((10 ^ 300 : ℕ) : K)

/-- The variables of the walk. -/
structure KsState (K : Type) where
  i : ℕ
  j : ℕ
  dmax : K

/-- One round of the walk. -/
def ksStep (n₁ n₂ : ℕ) (s₁ s₂ : ℕ → K) (w : KsState K) : KsState K :=
  let v₁ := if w.i < n₁ then s₁ w.i else sentinel K
  let v₂ := if w.j < n₂ then s₂ w.j else sentinel K
  let i := if v₁ ≤ v₂ then w.i + 1 else w.i
  let j := if v₂ ≤ v₁ then w.j + 1 else w.j
  let fa : K := (i : K) / n₁
  let fb : K := (j : K) / n₂
  let diff := if fa ≥ fb then fa - fb else fb - fa
  ⟨i, j, if diff > w.dmax then diff else w.dmax⟩

/-- The walk, with a bound on the number of rounds. -/
def ksWalk (n₁ n₂ : ℕ) (s₁ s₂ : ℕ → K) : ℕ → KsState K → Except Fault (KsState K)
  | 0, w => if w.i < n₁ ∨ w.j < n₂ then .error .depth else .ok w
  | fuel + 1, w =>
      if w.i < n₁ ∨ w.j < n₂ then ksWalk n₁ n₂ s₁ s₂ fuel (ksStep n₁ n₂ s₁ s₂ w) else .ok w

/-- The list that a test returns. -/
structure KsResult (K : Type) where
  d : K
  pValue : K
  meanA : K
  meanB : K
  diff : K

/-- The asymptotic p-value. -/
def ksPValue (sqrt exp : K → K) (n₁ n₂ : ℕ) (dmax : K) : K :=
  let en := sqrt (((n₁ : K) * n₂) / (n₁ + n₂))
  let s := (en + ((12 : ℕ) : K) / (100 : ℕ) + ((11 : ℕ) : K) / (100 : ℕ) / en) * dmax
  let p := (List.range' 1 100).foldl (fun p k =>
    let sign : ℤ := if k % 2 = 0 then -1 else 1
    p + ((2 * sign : ℤ) : K) * exp (((-2 : ℤ) : K) * (((k * k : ℕ) : K) * (s * s)))) 0
  let p := if p < 0 then 0 else p
  if p > 1 then 1 else p

/-- `mapper-ks-test`. -/
def mapperKsTest (sqrt exp : K → K) (fuel n₁ n₂ : ℕ) (x y : ℕ → K) :
    Except Fault (KsResult K) := do
  let m₁ := statMean n₁ x
  let m₂ := statMean n₂ y
  if n₁ < 1 ∨ n₂ < 1 then .error (.error "need at least 1 element per sample")
  else do
    let s₁ := sortDouble n₁ x
    let s₂ := sortDouble n₂ y
    let w ← ksWalk n₁ n₂ s₁ s₂ fuel ⟨0, 0, 0⟩
    .ok ⟨w.dmax, ksPValue sqrt exp n₁ n₂ w.dmax, m₁, m₂, m₁ - m₂⟩

/-! ## What it is to compute -/

/-- The empirical distribution function of a sample. -/
def ecdf (n : ℕ) (x : ℕ → K) (v : K) : K := (Nat.count (fun i => x i ≤ v) n : K) / n

/-- The gap between the distribution functions of two samples. -/
def cdfGap (n₁ n₂ : ℕ) (x y : ℕ → K) (v : K) : K := |ecdf n₁ x v - ecdf n₂ y v|

/-- In how many pairs the copies of a value can be put. -/
def pairs (n₁ n₂ : ℕ) (x y : ℕ → K) (v : K) : ℕ :=
  min (Nat.count (fun i => x i = v) n₁) (Nat.count (fun j => y j = v) n₂)

/-- The gap when the values below `v`, and its pairs of copies, have been passed. -/
def cornerGap (n₁ n₂ : ℕ) (x y : ℕ → K) (v : K) : K :=
  |((Nat.count (fun i => x i < v) n₁ + pairs n₁ n₂ x y v : ℕ) : K) / n₁ -
    ((Nat.count (fun j => y j < v) n₂ + pairs n₁ n₂ x y v : ℕ) : K) / n₂|

/-- The test ends with the statistic `d`. -/
def KsStatistic (sqrt exp : K → K) (n₁ n₂ : ℕ) (x y : ℕ → K) (d : K) : Prop :=
  ∃ fuel r, mapperKsTest sqrt exp fuel n₁ n₂ x y = .ok r ∧ r.d = d

/-- The test ends, for the samples in both orders, with the supremum of the gap. -/
def KsExact (sqrt exp : K → K) (n₁ n₂ : ℕ) (x y : ℕ → K) : Prop :=
  ∃ d, KsStatistic sqrt exp n₁ n₂ x y d ∧ KsStatistic sqrt exp n₂ n₁ y x d ∧
    IsLUB (Set.range (cdfGap n₁ n₂ x y)) d

/-! ## The walk -/

/-- The gap that is measured at a point of the walk. -/
def gapAt (n₁ n₂ : ℕ) (p : ℕ × ℕ) : K := |(p.1 : K) / n₁ - (p.2 : K) / n₂|

/-- What is left of a sample. -/
def rest (n : ℕ) (s : ℕ → K) (i : ℕ) : List K := (List.range' i (n - i)).map s

variable {n n₁ n₂ : ℕ} {s s₁ s₂ x y : ℕ → K} {w w' : KsState K} {i : ℕ} {sqrt exp : K → K}

omit [Field K] [LinearOrder K] in
theorem rest_of_lt (h : i < n) : rest n s i = s i :: rest n s (i + 1) := by
  have hlen : n - i = n - (i + 1) + 1 := by omega
  rw [rest, rest, hlen, List.range'_succ, List.map_cons]

omit [Field K] [LinearOrder K] in
theorem rest_of_le (h : n ≤ i) : rest n s i = [] := by
  rw [rest, Nat.sub_eq_zero_of_le h]
  rfl

omit [Field K] [LinearOrder K] in
theorem mem_rest {b : K} (h : b ∈ rest n s i) : ∃ k, i ≤ k ∧ k < n ∧ s k = b := by
  obtain ⟨k, hk, rfl⟩ := List.mem_map.mp h
  obtain ⟨hik, hkn⟩ := List.mem_range'_1.mp hk
  exact ⟨k, hik, by omega, rfl⟩

omit [Field K] in
theorem pairwise_rest (h : Sorted id n s) : (rest n s i).Pairwise (· ≤ ·) := by
  rw [rest, List.pairwise_map]
  refine List.Pairwise.imp_of_mem ?_ List.pairwise_lt_range'
  intro a b _ hb hab
  obtain ⟨hib, hbn⟩ := List.mem_range'_1.mp hb
  exact h a b hab.le (by omega)

/-- What the walk relies on: sorted samples, with all values below the sentinel. -/
structure Walkable (n₁ n₂ : ℕ) (s₁ s₂ : ℕ → K) : Prop where
  sorted₁ : Sorted id n₁ s₁
  sorted₂ : Sorted id n₂ s₂
  below₁ : ∀ k < n₁, s₁ k < sentinel K
  below₂ : ∀ k < n₂, s₂ k < sentinel K

/-- What is left of a sample is not below its first element. -/
theorem lt_of_mem_rest {v : K} (hs : Sorted id n s) (hv : v < if i < n then s i else sentinel K)
    {b : K} (hb : b ∈ rest n s i) : v < b := by
  obtain ⟨k, hik, hk, rfl⟩ := mem_rest hb
  rw [if_pos (by omega)] at hv
  exact hv.trans_le (hs i k hik hk)

/-- The element at the front of what is left, or the sentinel. -/
theorem front_le (hbelow : ∀ k < n, s k < sentinel K) (i : ℕ) :
    (if i < n then s i else sentinel K) ≤ sentinel K := by
  split_ifs with hi
  · exact (hbelow i hi).le
  · exact le_rfl

theorem front_lt_iff (hbelow : ∀ k < n, s k < sentinel K) (i : ℕ) :
    (if i < n then s i else sentinel K) < sentinel K ↔ i < n := by
  split_ifs with hi
  · exact iff_of_true (hbelow i hi) hi
  · exact iff_of_false (lt_irrefl _) hi

theorem ksStep_dmax [IsStrictOrderedRing K] (n₁ n₂ : ℕ) (s₁ s₂ : ℕ → K) (w : KsState K) :
    (ksStep n₁ n₂ s₁ s₂ w).dmax = max w.dmax
      (gapAt n₁ n₂ ((ksStep n₁ n₂ s₁ s₂ w).i, (ksStep n₁ n₂ s₁ s₂ w).j)) := by
  have hdiff : ∀ a b : K, (if a ≥ b then a - b else b - a) = |a - b| := by
    intro a b
    split_ifs with h
    · exact (abs_of_nonneg (sub_nonneg.mpr h)).symm
    · rw [abs_sub_comm]
      exact (abs_of_nonneg (sub_nonneg.mpr (not_le.mp h).le)).symm
  have hmax : ∀ a b : K, (if a > b then a else b) = max b a := by
    intro a b
    split_ifs with h
    · exact (max_eq_right h.le).symm
    · exact (max_eq_left (not_lt.mp h)).symm
  simp only [ksStep, hdiff, hmax, gapAt]

/-- **A round is a step of the walk.** -/
theorem ksStep_spec (h : Walkable n₁ n₂ s₁ s₂) (hmore : w.i < n₁ ∨ w.j < n₂) (hi : w.i ≤ n₁)
    (hj : w.j ≤ n₂) (hw : ksStep n₁ n₂ s₁ s₂ w = w') :
    Step (rest n₁ s₁ w.i) (rest n₂ s₂ w.j) (w.i, w.j) (rest n₁ s₁ w'.i) (rest n₂ s₂ w'.j)
        (w'.i, w'.j) ∧
      w'.i ≤ n₁ ∧ w'.j ≤ n₂ ∧ n₁ - w'.i + (n₂ - w'.j) < n₁ - w.i + (n₂ - w.j) := by
  have hle₁ := front_le h.below₁ w.i
  have hle₂ := front_le h.below₂ w.j
  have hlt₁ := front_lt_iff h.below₁ w.i
  have hlt₂ := front_lt_iff h.below₂ w.j
  rcases lt_trichotomy (if w.i < n₁ then s₁ w.i else sentinel K)
    (if w.j < n₂ then s₂ w.j else sentinel K) with hlt | heq | hgt
  · have hin : w.i < n₁ := hlt₁.mp (hlt.trans_le hle₂)
    have hi' : w'.i = w.i + 1 := by simp only [← hw, ksStep, if_pos hlt.le]
    have hj' : w'.j = w.j := by simp only [← hw, ksStep, if_neg (not_le.mpr hlt)]
    rw [hi', hj', rest_of_lt hin]
    refine ⟨.first _ _ _ _ fun b hb => ?_, hin, hj, by omega⟩
    rw [if_pos hin] at hlt
    exact lt_of_mem_rest h.sorted₂ hlt hb
  · have hboth : w.i < n₁ ∧ w.j < n₂ := by
      rw [← hlt₁, ← hlt₂] at hmore ⊢
      rcases hmore with hm | hm
      · exact ⟨hm, heq ▸ hm⟩
      · exact ⟨heq ▸ hm, hm⟩
    obtain ⟨hin, hjn⟩ := hboth
    have hi' : w'.i = w.i + 1 := by simp only [← hw, ksStep, if_pos heq.le]
    have hj' : w'.j = w.j + 1 := by simp only [← hw, ksStep, if_pos heq.ge]
    rw [hi', hj', rest_of_lt hin, rest_of_lt hjn]
    rw [if_pos hin, if_pos hjn] at heq
    rw [heq]
    exact ⟨.both _ _ _ _, hin, hjn, by omega⟩
  · have hjn : w.j < n₂ := hlt₂.mp (hgt.trans_le hle₁)
    have hi' : w'.i = w.i := by simp only [← hw, ksStep, if_neg (not_le.mpr hgt)]
    have hj' : w'.j = w.j + 1 := by simp only [← hw, ksStep, if_pos hgt.le]
    rw [hi', hj', rest_of_lt hjn]
    refine ⟨.second _ _ _ _ fun b hb => ?_, hi, hjn, by omega⟩
    rw [if_pos hjn] at hgt
    exact lt_of_mem_rest h.sorted₁ hgt hb

omit [Field K] in
theorem walk_stop {f : ℕ × ℕ → K} {p : ℕ × ℕ} {d : K} (hend : ¬(w.i < n₁ ∨ w.j < n₂)) :
    Walk f (rest n₁ s₁ w.i) (rest n₂ s₂ w.j) p d d := by
  rw [rest_of_le (by omega), rest_of_le (by omega)]
  exact .stop _ _

/-- A run that ends is a walk along what is left. -/
theorem ksWalk_walk [IsStrictOrderedRing K] (h : Walkable n₁ n₂ s₁ s₂) {fuel : ℕ} (hi : w.i ≤ n₁)
    (hj : w.j ≤ n₂) (hrun : ksWalk n₁ n₂ s₁ s₂ fuel w = .ok w') :
    Walk (gapAt n₁ n₂) (rest n₁ s₁ w.i) (rest n₂ s₂ w.j) (w.i, w.j) w.dmax w'.dmax := by
  induction fuel generalizing w with
  | zero =>
      rw [ksWalk] at hrun
      split_ifs at hrun with hmore
      obtain rfl := Except.ok.inj hrun
      exact walk_stop hmore
  | succ fuel ih =>
      rw [ksWalk] at hrun
      split_ifs at hrun with hmore
      · obtain ⟨hstep, hi', hj', -⟩ := ksStep_spec h hmore hi hj rfl
        have hwalk := ih hi' hj' hrun
        rw [ksStep_dmax] at hwalk
        exact .step hstep hwalk
      · obtain rfl := Except.ok.inj hrun
        exact walk_stop hmore

/-- The walk ends. -/
theorem ksWalk_ok (h : Walkable n₁ n₂ s₁ s₂) {fuel : ℕ} (hi : w.i ≤ n₁) (hj : w.j ≤ n₂)
    (hfuel : n₁ - w.i + (n₂ - w.j) ≤ fuel) : ∃ w', ksWalk n₁ n₂ s₁ s₂ fuel w = .ok w' := by
  induction fuel generalizing w with
  | zero =>
      rw [ksWalk, if_neg (by omega)]
      exact ⟨w, rfl⟩
  | succ fuel ih =>
      rw [ksWalk]
      split_ifs with hmore
      · obtain ⟨-, hi', hj', hlt⟩ := ksStep_spec h hmore hi hj rfl
        exact ih hi' hj' (by omega)
      · exact ⟨w, rfl⟩

/-! ## What the walk measures -/

/-- On a straight part of the walk the gap is greatest at an end. -/
theorem straight_gapAt [IsStrictOrderedRing K] (n₁ n₂ : ℕ) : Straight (gapAt (K := K) n₁ n₂) := by
  intro p d e m hm
  have hm1 : (1 : K) ≤ m := by exact_mod_cast hm
  set z : K := (p.1 : K) / n₁ - (p.2 : K) / n₂ with hz
  set δ : K := (d : K) / n₁ - (e : K) / n₂ with hδ
  have hone : ((p.1 + d : ℕ) : K) / n₁ - ((p.2 + e : ℕ) : K) / n₂ = z + δ := by
    rw [hz, hδ, Nat.cast_add, Nat.cast_add]
    ring
  have hall : ((p.1 + m * d : ℕ) : K) / n₁ - ((p.2 + m * e : ℕ) : K) / n₂ = z + m * δ := by
    rw [hz, hδ, Nat.cast_add, Nat.cast_add, Nat.cast_mul, Nat.cast_mul]
    ring
  simp only [gapAt, hone, hall]
  rcases le_total 0 δ with hpos | hneg
  · exact abs_le_max_abs_abs (by linarith) (by nlinarith)
  · rw [max_comm]
    exact abs_le_max_abs_abs (by nlinarith) (by linarith)

omit [Field K] [LinearOrder K] in
theorem rest_zero (n : ℕ) (s : ℕ → K) : rest n s 0 = (List.range n).map s := by
  rw [rest, Nat.sub_zero, List.range_eq_range']

omit [Field K] in
/-- The sorted sample has the elements of the sample. -/
theorem countP_rest_sortDouble (n : ℕ) (x : ℕ → K) (p : K → Prop) [DecidablePred p] :
    (rest n (sortDouble n x) 0).countP p = Nat.count (fun i => p (x i)) n := by
  rw [rest_zero, ← count_eq_countP, sortDouble,
    count_of_permuted (insertionSort_sorted id n x).2 p]

theorem gapAt_upTo (n₁ n₂ : ℕ) (x y : ℕ → K) (v : K) :
    gapAt n₁ n₂ (upTo (rest n₁ (sortDouble n₁ x) 0) (rest n₂ (sortDouble n₂ y) 0) (0, 0) v) =
      cdfGap n₁ n₂ x y v := by
  simp only [upTo, countP_rest_sortDouble, Nat.zero_add]
  rfl

theorem gapAt_paired (n₁ n₂ : ℕ) (x y : ℕ → K) (v : K) :
    gapAt n₁ n₂ (paired (rest n₁ (sortDouble n₁ x) 0) (rest n₂ (sortDouble n₂ y) 0) (0, 0) v) =
      cornerGap n₁ n₂ x y v := by
  have hcount : ∀ n (z : ℕ → K), (rest n (sortDouble n z) 0).count v =
      Nat.count (fun i => z i = v) n := fun n z => countP_rest_sortDouble n z (· = v)
  simp only [paired, countP_rest_sortDouble, hcount, Nat.zero_add]
  rfl

theorem walkable_sortDouble (hx : ∀ i < n₁, |x i| < sentinel K) (hy : ∀ j < n₂, |y j| < sentinel K)
    [IsStrictOrderedRing K] : Walkable n₁ n₂ (sortDouble n₁ x) (sortDouble n₂ y) := by
  have hbelow : ∀ n (z : ℕ → K), (∀ i < n, |z i| < sentinel K) →
      ∀ k < n, sortDouble n z k < sentinel K := by
    intro n z hz k hk
    obtain ⟨l, hl, heq⟩ := (insertionSort_sorted id n z).2.exists_lt hk
    rw [sortDouble, heq]
    exact (le_abs_self _).trans_lt (hz l hl)
  exact ⟨(insertionSort_sorted id n₁ x).1, (insertionSort_sorted id n₂ y).1, hbelow n₁ x hx,
    hbelow n₂ y hy⟩

/-! ## When the statistic is exact -/

/-- The samples of the claim: at least one value each, all of them less than the sentinel. -/
structure Samples (n₁ n₂ : ℕ) (x y : ℕ → K) : Prop where
  pos₁ : 0 < n₁
  pos₂ : 0 < n₂
  below₁ : ∀ i < n₁, |x i| < sentinel K
  below₂ : ∀ j < n₂, |y j| < sentinel K

theorem Samples.swap (h : Samples n₁ n₂ x y) : Samples n₂ n₁ y x :=
  ⟨h.pos₂, h.pos₁, h.below₂, h.below₁⟩

theorem mapperKsTest_eq (h : Samples n₁ n₂ x y) (fuel : ℕ) :
    mapperKsTest sqrt exp fuel n₁ n₂ x y =
      ksWalk n₁ n₂ (sortDouble n₁ x) (sortDouble n₂ y) fuel ⟨0, 0, 0⟩ >>= fun w =>
        .ok ⟨w.dmax, ksPValue sqrt exp n₁ n₂ w.dmax, statMean n₁ x, statMean n₂ y,
          statMean n₁ x - statMean n₂ y⟩ := by
  have hpos₁ := h.pos₁
  have hpos₂ := h.pos₂
  rw [mapperKsTest]
  exact if_neg (by omega)

theorem cdfGap_comm (v : K) [IsStrictOrderedRing K] : cdfGap n₁ n₂ x y v = cdfGap n₂ n₁ y x v :=
  abs_sub_comm _ _

theorem cornerGap_comm (v : K) [IsStrictOrderedRing K] :
    cornerGap n₁ n₂ x y v = cornerGap n₂ n₁ y x v := by
  rw [cornerGap, cornerGap, pairs, pairs, min_comm, abs_sub_comm]

variable [IsStrictOrderedRing K]

/-- The test ends. -/
theorem exists_ksStatistic (sqrt exp : K → K) (h : Samples n₁ n₂ x y) :
    ∃ d, KsStatistic sqrt exp n₁ n₂ x y d := by
  obtain ⟨w, hw⟩ := @ksWalk_ok _ _ _ n₁ n₂ _ _ ⟨0, 0, 0⟩ (walkable_sortDouble h.below₁ h.below₂)
    (n₁ - 0 + (n₂ - 0)) (Nat.zero_le _) (Nat.zero_le _) le_rfl
  have hrun := @mapperKsTest_eq K _ _ n₁ n₂ x y sqrt exp h (n₁ - 0 + (n₂ - 0))
  rw [hw] at hrun
  exact ⟨w.dmax, _, _, hrun, rfl⟩

/-- **The statistic is the supremum of the gaps and of the corner gaps.** -/
theorem KsStatistic.le_iff (h : Samples n₁ n₂ x y) {d : K}
    (hd : KsStatistic sqrt exp n₁ n₂ x y d) (M : K) :
    d ≤ M ↔ ∀ v, cdfGap n₁ n₂ x y v ≤ M ∧ cornerGap n₁ n₂ x y v ≤ M := by
  obtain ⟨fuel, r, hr, rfl⟩ := hd
  rw [mapperKsTest_eq h] at hr
  obtain ⟨w, hw, hr⟩ := bind_ok.mp hr
  obtain rfl := Except.ok.inj hr
  have hwalkable := walkable_sortDouble h.below₁ h.below₂
  have hwalk := ksWalk_walk hwalkable (Nat.zero_le _) (Nat.zero_le _) hw
  have hsorted₁ := pairwise_rest (i := 0) hwalkable.sorted₁
  have hsorted₂ := pairwise_rest (i := 0) hwalkable.sorted₂
  have hzero : gapAt (K := K) n₁ n₂ (0, 0) = 0 := by simp [gapAt]
  constructor
  · intro hle v
    have hpoints := hwalk.points_le hsorted₁ hsorted₂ hzero.le v
    rw [gapAt_upTo, gapAt_paired] at hpoints
    exact ⟨hpoints.1.trans hle, hpoints.2.trans hle⟩
  · intro hM
    have h0 : 0 ≤ M := (abs_nonneg _).trans (hM 0).1
    refine hwalk.le_of_points (straight_gapAt n₁ n₂) hsorted₁ hsorted₂ h0 (hzero.trans_le h0) ?_
    intro v
    rw [gapAt_upTo, gapAt_paired]
    exact hM v

/-- The order of the samples does not matter. -/
theorem KsStatistic.swap (h : Samples n₁ n₂ x y) {d : K}
    (hd : KsStatistic sqrt exp n₁ n₂ x y d) : KsStatistic sqrt exp n₂ n₁ y x d := by
  obtain ⟨d', hd'⟩ := exists_ksStatistic sqrt exp h.swap
  have hiff : ∀ M, d ≤ M ↔ d' ≤ M := by
    intro M
    have hcdf : ∀ v, cdfGap n₂ n₁ y x v = cdfGap n₁ n₂ x y v := fun v => (cdfGap_comm v).symm
    have hcorner : ∀ v, cornerGap n₂ n₁ y x v = cornerGap n₁ n₂ x y v := fun v =>
      (cornerGap_comm v).symm
    rw [hd.le_iff h, hd'.le_iff h.swap]
    simp only [hcdf, hcorner]
  obtain rfl : d = d' := le_antisymm ((hiff d').mpr le_rfl) ((hiff d).mp le_rfl)
  exact hd'

omit [IsStrictOrderedRing K] in
/-- The gap takes finitely many values, and so it has a greatest one. -/
theorem exists_cdfGap_max (n₁ n₂ : ℕ) (x y : ℕ → K) :
    ∃ w, ∀ v, cdfGap n₁ n₂ x y v ≤ cdfGap n₁ n₂ x y w := by
  have hsub : Set.range (cdfGap n₁ n₂ x y) ⊆
      (fun p : ℕ × ℕ => gapAt n₁ n₂ p) '' (Set.Iic n₁ ×ˢ Set.Iic n₂) := by
    rintro _ ⟨v, rfl⟩
    exact ⟨(_, _), ⟨Nat.count_le _, Nat.count_le _⟩, rfl⟩
  have hfinite : (Set.range (cdfGap n₁ n₂ x y)).Finite :=
    (((Set.finite_Iic n₁).prod (Set.finite_Iic n₂)).image _).subset hsub
  obtain ⟨_, ⟨w, rfl⟩, hw⟩ := Set.exists_max_image _ id hfinite (Set.range_nonempty _)
  exact ⟨w, fun v => hw _ ⟨v, rfl⟩⟩

/-- **The statistic is the supremum of the gap** exactly when no corner gap is greater. -/
theorem ksExact_iff (sqrt exp : K → K) (h : Samples n₁ n₂ x y) :
    KsExact sqrt exp n₁ n₂ x y ↔ ∀ v, ∃ w, cornerGap n₁ n₂ x y v ≤ cdfGap n₁ n₂ x y w := by
  obtain ⟨w, hw⟩ := exists_cdfGap_max n₁ n₂ x y
  constructor
  · rintro ⟨d, hd, -, hlub⟩ v
    refine ⟨w, (((hd.le_iff h d).mp le_rfl v).2).trans ?_⟩
    exact hlub.2 (by rintro _ ⟨u, rfl⟩; exact hw u)
  · intro hcorner
    obtain ⟨d, hd⟩ := exists_ksStatistic sqrt exp h
    refine ⟨d, hd, hd.swap h, ?_, ?_⟩
    · rintro _ ⟨v, rfl⟩
      exact ((hd.le_iff h d).mp le_rfl v).1
    · intro M hM
      refine (hd.le_iff h M).mpr fun v => ⟨hM ⟨v, rfl⟩, ?_⟩
      obtain ⟨u, hu⟩ := hcorner v
      exact hu.trans (hM ⟨u, rfl⟩)

theorem one_lt_sentinel : (1 : ℚ) < sentinel ℚ := by
  rw [sentinel, Nat.cast_pow]
  exact one_lt_pow₀ (by norm_num) (by decide)

theorem ksExact_iff_zero_one :
    KsExact (id : ℚ → ℚ) id 1 1 (fun _ => 0) (fun _ => 1) ↔
      ∀ v, ∃ w, cornerGap 1 1 (fun _ => (0 : ℚ)) (fun _ => 1) v ≤
        cdfGap 1 1 (fun _ => (0 : ℚ)) (fun _ => 1) w :=
  ksExact_iff id id ⟨Nat.one_pos, Nat.one_pos,
    fun _ _ => by simpa using zero_lt_one.trans one_lt_sentinel,
    fun _ _ => by simpa using one_lt_sentinel⟩

/-- The samples `1, 1` and `1` have the same distribution function, but the walk measures
the gap between `1/2` and `1`. -/
theorem not_ksExact_ones : ¬ KsExact (id : ℚ → ℚ) id 2 1 (fun _ => 1) (fun _ => 1) := by
  rintro ⟨d, hd, -, hlub⟩
  have hsamples : Samples 2 1 (fun _ => (1 : ℚ)) (fun _ => 1) :=
    ⟨Nat.two_pos, Nat.one_pos, fun _ _ => by simpa using one_lt_sentinel,
      fun _ _ => by simpa using one_lt_sentinel⟩
  have hgap : ∀ v : ℚ, cdfGap 2 1 (fun _ => (1 : ℚ)) (fun _ => 1) v = 0 := by
    intro v
    by_cases hv : 1 ≤ v <;> simp [cdfGap, ecdf, Nat.count_succ, hv]
  have hzero : d ≤ 0 := hlub.2 (by rintro _ ⟨v, rfl⟩; exact (hgap v).le)
  have hcorner := ((hd.le_iff hsamples 0).mp hzero 1).2
  norm_num [cornerGap, pairs, Nat.count_succ] at hcorner

end Lush.Mapper
