import Lush.Conformal.Pava

/-!
# Venn-ABERS prediction

For a test point and each of its labels, `venn-abers-predict` puts the point after the
calibration points, sorts all of them by their scores, and reads the value of the point in
the isotonic regression of the labels.  Points with equal scores stay in the order in which
they were given.
-/

namespace Lush.Conformal

open Isotonic

variable {K : Type} [Field K] [LinearOrder K] {S : Type} [LinearOrder S]

/-! ## Prediction -/

/-- `(to-double label)`. -/
def toDouble (label : Bool) : K := if label then 1 else 0

/-- The loop that moves greater scores up in `aug-order`.  The order has its last index
first. -/
def insertDown (score : ℕ → S) (vi : ℕ) : List ℕ → List ℕ
  | [] => [vi]
  | j :: rest =>
      if score vi < score j then j :: insertDown score vi rest else vi :: j :: rest

/-- `aug-order` after the insertion of so many indices, the last one first. -/
def augOrder (score : ℕ → S) : ℕ → List ℕ
  | 0 => []
  | i + 1 => insertDown score i (augOrder score i)

/-- `found-val`. -/
def foundVal (out : ℕ → K) (nCal : ℕ) (order : List ℕ) : K :=
  order.zipIdx.foldl (fun found p => if p.1 = nCal then out p.2 else found) 0

/-- One label of a test point.  `pava-out` is used again. -/
def vennAbersRun (cal : List (S × Bool)) (ts : S) (y : Bool) (pavaOut : ℕ → K) :
    K × (ℕ → K) :=
  let aug := cal ++ [(ts, y)]
  let order := (augOrder (fun i => (aug.getD i (ts, y)).1) aug.length).reverse
  let sortedLabels : List K := order.map fun idx => toDouble (aug.getD idx (ts, y)).2
  let pavaOut := cpPava (fun i => sortedLabels.getD i 0) (fun _ => 1) aug.length pavaOut
  (foundVal pavaOut cal.length order, pavaOut)

/-- The loop over the test points. -/
def vennAbersLoop (cal : List (S × Bool)) : List S → (ℕ → K) → List (K × K)
  | [], _ => []
  | ts :: tests, pavaOut =>
      let r0 := vennAbersRun cal ts false pavaOut
      let r1 := vennAbersRun cal ts true r0.2
      (r0.1, r1.1) :: vennAbersLoop cal tests r1.2

/-- `venn-abers-predict`. -/
def vennAbersPredict (cal : List (S × Bool)) (testScores : List S) : List (K × K) :=
  vennAbersLoop cal testScores fun _ => 0

/-! ## The order of the points -/

section
variable {score : ℕ → S} {n v : ℕ} {l : List ℕ}

theorem insertDown_eq (score : ℕ → S) (v : ℕ) (l : List ℕ) :
    insertDown score v l = l.orderedInsert (fun a b => score b ≤ score a) v := by
  induction l with
  | nil => rfl
  | cons j l ih =>
      rw [insertDown, List.orderedInsert_cons]
      by_cases h : score v < score j
      · rw [if_pos h, if_neg (not_le.mpr h), ih]
      · rw [if_neg h, if_pos (not_lt.mp h)]

theorem perm_augOrder (score : ℕ → S) (n : ℕ) : (augOrder score n).Perm (List.range n) := by
  induction n with
  | zero => exact .nil
  | succ n ih =>
      rw [augOrder, insertDown_eq, List.range_succ]
      exact ((List.perm_orderedInsert _ _ _).trans (ih.cons n)).trans
        (List.perm_append_singleton n _).symm

theorem pairwise_augOrder (score : ℕ → S) (n : ℕ) :
    (augOrder score n).Pairwise fun a b => score b ≤ score a := by
  induction n with
  | zero => exact .nil
  | succ n ih =>
      have htotal : Std.Total fun a b => score b ≤ score a := ⟨fun a b => le_total _ _⟩
      have htrans : IsTrans ℕ fun a b => score b ≤ score a := ⟨fun a b c h h' => h'.trans h⟩
      rw [augOrder, insertDown_eq]
      exact ih.orderedInsert n _

/-- An index is inserted after those with greater scores. -/
theorem insertDown_filter (h : l.Pairwise fun a b => score b ≤ score a) :
    insertDown score v l =
      l.filter (fun j => score v < score j) ++ v :: l.filter fun j => score j ≤ score v := by
  induction l with
  | nil => rfl
  | cons j l ih =>
      obtain ⟨hj, hl⟩ := List.pairwise_cons.mp h
      rw [insertDown]
      by_cases hv : score v < score j
      · rw [if_pos hv, ih hl]
        simp [hv, not_le.mpr hv]
      · have hle : ∀ k ∈ j :: l, score k ≤ score v := by
          intro k hk
          rcases List.mem_cons.mp hk with rfl | hk
          · exact not_lt.mp hv
          · exact (hj k hk).trans (not_lt.mp hv)
        have hnone : (j :: l).filter (fun k => score v < score k) = [] := by
          apply List.filter_eq_nil_iff.mpr
          intro k hk
          simpa using hle k hk
        have hall : (j :: l).filter (fun k => score k ≤ score v) = j :: l := by
          apply List.filter_eq_self.mpr
          intro k hk
          simpa using hle k hk
        rw [if_neg hv, hnone, hall, List.nil_append]

theorem insertDown_congr {score' : ℕ → S} (hv : score v = score' v)
    (h : ∀ j ∈ l, score j = score' j) : insertDown score v l = insertDown score' v l := by
  induction l with
  | nil => rfl
  | cons j l ih =>
      rw [insertDown, insertDown, hv, h j List.mem_cons_self,
        ih fun k hk => h k (List.mem_cons_of_mem j hk)]

theorem mem_augOrder {j : ℕ} : j ∈ augOrder score n ↔ j < n := by
  rw [(perm_augOrder score n).mem_iff, List.mem_range]

theorem augOrder_congr {score' : ℕ → S} (h : ∀ i < n, score i = score' i) :
    augOrder score n = augOrder score' n := by
  induction n with
  | zero => rfl
  | succ n ih =>
      rw [augOrder, augOrder, ih fun i hi => h i (hi.trans (Nat.lt_succ_self n))]
      apply insertDown_congr (h n (Nat.lt_succ_self n))
      intro j hj
      exact h j ((mem_augOrder.mp hj).trans (Nat.lt_succ_self n))

end

/-! ## The calibration points in order -/

section
variable (cal : List (S × Bool)) (d : S × Bool) (ts : S) (y : Bool)

/-- The calibration points, sorted by their scores. -/
def sortedCal : List (S × Bool) :=
  (augOrder (fun i => (cal.getD i d).1) cal.length).reverse.map fun i => cal.getD i d

omit [LinearOrder S] in
theorem map_range_getD : (List.range cal.length).map (fun i => cal.getD i d) = cal := by
  apply List.ext_getElem
  · simp
  · intro i hi hi'
    rw [List.getElem_map, List.getElem_range, List.getD_eq_getElem _ _ hi']

theorem perm_sortedCal : (sortedCal cal d).Perm cal := by
  have hperm := (perm_augOrder (fun i => (cal.getD i d).1) cal.length).map fun i => cal.getD i d
  rw [map_range_getD] at hperm
  exact ((List.reverse_perm _).map _).trans hperm

theorem pairwise_sortedCal : (sortedCal cal d).Pairwise fun a b => a.1 ≤ b.1 := by
  rw [sortedCal, List.pairwise_map, List.pairwise_reverse]
  exact pairwise_augOrder _ _

/-- The points of a run, in order: the test point is after the points with its score. -/
def runPoints (sorted : List (S × Bool)) : List (S × Bool) :=
  sorted.filter (fun p => p.1 ≤ ts) ++ (ts, y) :: sorted.filter fun p => ts < p.1

/-- The position of the test point. -/
def testPosition (sorted : List (S × Bool)) : ℕ := (sorted.filter fun p => p.1 ≤ ts).length

/-- The indices of the points of a run. -/
theorem order_eq :
    (augOrder (fun i => ((cal ++ [(ts, y)]).getD i (ts, y)).1) (cal.length + 1)).reverse =
      let order := (augOrder (fun i => (cal.getD i (ts, y)).1) cal.length).reverse
      order.filter (fun j => (cal.getD j (ts, y)).1 ≤ ts) ++
        cal.length :: order.filter fun j => ts < (cal.getD j (ts, y)).1 := by
  have hcal : ∀ i < cal.length, ((cal ++ [(ts, y)]).getD i (ts, y)).1 = (cal.getD i (ts, y)).1 := by
    intro i hi
    rw [List.getD_append _ _ _ _ hi]
  have htest : ((cal ++ [(ts, y)]).getD cal.length (ts, y)).1 = ts := by
    rw [List.getD_append_right _ _ _ _ le_rfl, Nat.sub_self]
    rfl
  rw [augOrder, insertDown_filter (pairwise_augOrder _ _), augOrder_congr hcal, htest,
    List.reverse_append, List.reverse_cons, List.append_assoc, List.singleton_append,
    ← List.filter_reverse, ← List.filter_reverse]
  congr 1
  · apply List.filter_congr
    intro j hj
    rw [hcal j (mem_augOrder.mp (List.mem_reverse.mp hj))]
  · congr 1
    apply List.filter_congr
    intro j hj
    rw [hcal j (mem_augOrder.mp (List.mem_reverse.mp hj))]

end

/-! ## The value of a run -/

omit [Field K] [LinearOrder K] in
theorem foldl_zipIdx_of_not_mem (out : ℕ → K) {nCal : ℕ} {l : List ℕ} (h : nCal ∉ l) (k : ℕ)
    (found : K) : (l.zipIdx k).foldl (fun found p => if p.1 = nCal then out p.2 else found) found =
      found := by
  induction l generalizing k with
  | nil => rfl
  | cons j l ih =>
      obtain ⟨hj, hl⟩ := not_or.mp (mt List.mem_cons.mpr h)
      rw [List.zipIdx_cons, List.foldl_cons, if_neg (Ne.symm hj)]
      exact ih hl _

omit [LinearOrder K] in
theorem foundVal_eq (out : ℕ → K) {nCal : ℕ} {l l' : List ℕ} (h : nCal ∉ l) (h' : nCal ∉ l') :
    foundVal out nCal (l ++ nCal :: l') = out l.length := by
  rw [foundVal, List.zipIdx_append, List.foldl_append, foldl_zipIdx_of_not_mem out h,
    List.zipIdx_cons, List.foldl_cons, if_pos rfl, foldl_zipIdx_of_not_mem out h', Nat.zero_add]

/-- The labels of a run, in order. -/
def runLabels (sorted : List (S × Bool)) (ts : S) (y : Bool) (i : ℕ) : K :=
  ((runPoints ts y sorted).map fun p => toDouble p.2).getD i 0

theorem map_order (cal : List (S × Bool)) (ts : S) (y : Bool) :
    (augOrder (fun i => ((cal ++ [(ts, y)]).getD i (ts, y)).1) (cal.length + 1)).reverse.map
        (fun i => (cal ++ [(ts, y)]).getD i (ts, y)) =
      runPoints ts y (sortedCal cal (ts, y)) := by
  have htest : (cal ++ [(ts, y)]).getD cal.length (ts, y) = (ts, y) := by
    rw [List.getD_append_right _ _ _ _ le_rfl, Nat.sub_self]
    rfl
  have hcal : ∀ j ∈ (augOrder (fun i => (cal.getD i (ts, y)).1) cal.length).reverse,
      (cal ++ [(ts, y)]).getD j (ts, y) = cal.getD j (ts, y) := by
    intro j hj
    exact List.getD_append _ _ _ _ (mem_augOrder.mp (List.mem_reverse.mp hj))
  rw [order_eq, runPoints, sortedCal, List.filter_map, List.filter_map, List.map_append,
    List.map_cons, htest]
  congr 1
  · exact List.map_congr_left fun j hj => hcal j (List.mem_of_mem_filter hj)
  · congr 1
    exact List.map_congr_left fun j hj => hcal j (List.mem_of_mem_filter hj)

/-- **The value of a run.** -/
theorem vennAbersRun_eq (cal : List (S × Bool)) (ts : S) (y : Bool) (pavaOut : ℕ → K) :
    (vennAbersRun cal ts y pavaOut).1 =
      cpPava (runLabels (sortedCal cal (ts, y)) ts y) (fun _ => 1) (cal.length + 1) pavaOut
        (testPosition ts (sortedCal cal (ts, y))) := by
  have hlabels := congrArg (List.map fun p : S × Bool => (toDouble p.2 : K)) (map_order cal ts y)
  rw [List.map_map] at hlabels
  have hpos : testPosition ts (sortedCal cal (ts, y)) =
      ((augOrder (fun i => (cal.getD i (ts, y)).1) cal.length).reverse.filter
        fun j => (cal.getD j (ts, y)).1 ≤ ts).length := by
    rw [testPosition, sortedCal, List.filter_map, List.length_map]
    rfl
  have hnot : ∀ f : ℕ → Bool, cal.length ∉
      (augOrder (fun i => (cal.getD i (ts, y)).1) cal.length).reverse.filter f := by
    intro f hmem
    exact (mem_augOrder.mp (List.mem_reverse.mp (List.mem_of_mem_filter hmem))).false
  have hfun : (fun i => (List.map (fun idx => toDouble ((cal ++ [(ts, y)]).getD idx (ts, y)).2)
      (augOrder (fun i => ((cal ++ [(ts, y)]).getD i (ts, y)).1)
        (cal.length + 1)).reverse).getD i 0) =
      (runLabels (sortedCal cal (ts, y)) ts y : ℕ → K) := by
    funext i
    exact congrArg (fun l => l.getD i 0) hlabels
  unfold vennAbersRun
  simp only [List.length_append, List.length_singleton]
  rw [hfun, order_eq, foundVal_eq _ (hnot _) (hnot _), hpos]

/-! ## The calibration points as a multiset -/

/-- Points with equal scores have equal labels. -/
def TiesAgree (cal : List (S × Bool)) : Prop :=
  ∀ a ∈ cal, ∀ b ∈ cal, a.1 = b.1 → a.2 = b.2

theorem sortedCal_eq {cal cal' : List (S × Bool)} (h : TiesAgree cal) (hperm : cal'.Perm cal)
    (d : S × Bool) : sortedCal cal' d = sortedCal cal d := by
  apply List.Perm.eq_of_pairwise _ (pairwise_sortedCal cal' d) (pairwise_sortedCal cal d)
  · exact (perm_sortedCal cal' d).trans (hperm.trans (perm_sortedCal cal d).symm)
  · intro a b ha hb hab hba
    have ha' : a ∈ cal := hperm.mem_iff.mp ((perm_sortedCal cal' d).mem_iff.mp ha)
    have hb' : b ∈ cal := (perm_sortedCal cal d).mem_iff.mp hb
    have hscore : a.1 = b.1 := le_antisymm hab hba
    exact Prod.ext hscore (h a ha' b hb' hscore)

variable [IsStrictOrderedRing K]

theorem testPosition_lt (cal : List (S × Bool)) (ts : S) (d : S × Bool) :
    testPosition ts (sortedCal cal d) < cal.length + 1 := by
  rw [← (perm_sortedCal cal d).length_eq]
  exact Nat.lt_succ_of_le (List.length_filter_le _ _)

/-- The value of a run, without the old content of `pava-out`. -/
theorem vennAbersRun_eq_maxMin (cal : List (S × Bool)) (ts : S) (y : Bool) (pavaOut : ℕ → K) :
    (vennAbersRun cal ts y pavaOut).1 =
      maxMin (runLabels (sortedCal cal (ts, y)) ts y) (fun _ => 1) (cal.length + 1)
        (testPosition ts (sortedCal cal (ts, y))) (testPosition_lt cal ts (ts, y)) := by
  rw [vennAbersRun_eq]
  exact (cpPava_isotonic _ _ _ (fun _ _ => one_pos) _).2.1 _ _

/-- **The order of the calibration points does not matter.** -/
theorem vennAbersRun_perm {cal cal' : List (S × Bool)} (h : TiesAgree cal)
    (hperm : cal'.Perm cal) (ts : S) (y : Bool) (pavaOut pavaOut' : ℕ → K) :
    (vennAbersRun cal' ts y pavaOut').1 = (vennAbersRun cal ts y pavaOut).1 := by
  rw [vennAbersRun_eq_maxMin, vennAbersRun_eq_maxMin]
  simp only [sortedCal_eq h hperm, hperm.length_eq]

/-- A run, on its own. -/
def prediction (K : Type) [Field K] [LinearOrder K] (cal : List (S × Bool)) (ts : S) : K × K :=
  ((vennAbersRun cal ts false fun _ => 0).1, (vennAbersRun cal ts true fun _ => 0).1)

theorem vennAbersPredict_eq_map (cal : List (S × Bool)) (testScores : List S) :
    vennAbersPredict cal testScores = testScores.map (prediction K cal) := by
  have hloop : ∀ pavaOut : ℕ → K,
      vennAbersLoop cal testScores pavaOut = testScores.map (prediction K cal) := by
    induction testScores with
    | nil => exact fun _ => rfl
    | cons ts tests ih =>
        intro pavaOut
        rw [vennAbersLoop, ih, List.map_cons, prediction, vennAbersRun_eq_maxMin,
          vennAbersRun_eq_maxMin, vennAbersRun_eq_maxMin, vennAbersRun_eq_maxMin]
  exact hloop _

/-! ## Both labels -/

omit [LinearOrder K] [IsStrictOrderedRing K] in
theorem toDouble_cases (label : Bool) : (toDouble label : K) = 0 ∨ (toDouble label : K) = 1 := by
  cases label
  · exact Or.inl rfl
  · exact Or.inr rfl

theorem toDouble_nonneg (label : Bool) : (0 : K) ≤ toDouble label := by
  rcases toDouble_cases (K := K) label with h | h <;> rw [h]
  exact zero_le_one

theorem toDouble_le_one (label : Bool) : (toDouble label : K) ≤ 1 := by
  rcases toDouble_cases (K := K) label with h | h <;> rw [h]
  exact zero_le_one

theorem runLabels_mem (sorted : List (S × Bool)) (ts : S) (y : Bool) (i : ℕ) :
    (0 : K) ≤ runLabels sorted ts y i ∧ (runLabels sorted ts y i : K) ≤ 1 := by
  unfold runLabels
  rcases Nat.lt_or_ge i (runPoints ts y sorted).length with hi | hi
  · rw [List.getD_eq_getElem _ _ (by simpa using hi), List.getElem_map]
    exact ⟨toDouble_nonneg _, toDouble_le_one _⟩
  · rw [List.getD_eq_default _ _ (by simpa using hi)]
    exact ⟨le_rfl, zero_le_one⟩

theorem runLabels_le (sorted : List (S × Bool)) (ts : S) (i : ℕ) :
    (runLabels sorted ts false i : K) ≤ runLabels sorted ts true i := by
  unfold runLabels runPoints
  rw [List.map_append, List.map_append, List.map_cons, List.map_cons]
  generalize (sorted.filter fun p => p.1 ≤ ts).map (fun p => (toDouble p.2 : K)) = lower
  rcases Nat.lt_or_ge i lower.length with hi | hi
  · rw [List.getD_append _ _ _ _ hi, List.getD_append _ _ _ _ hi]
  · rw [List.getD_append_right _ _ _ _ hi, List.getD_append_right _ _ _ _ hi]
    cases i - lower.length with
    | zero => exact zero_le_one
    | succ k => exact le_rfl

omit [IsStrictOrderedRing K] [Field K] [LinearOrder K] in
theorem sortedCal_default (cal : List (S × Bool)) (d d' : S × Bool) :
    sortedCal cal d = sortedCal cal d' := by
  have hget : ∀ i < cal.length, cal.getD i d = cal.getD i d' := by
    intro i hi
    rw [List.getD_eq_getElem _ _ hi, List.getD_eq_getElem _ _ hi]
  unfold sortedCal
  rw [augOrder_congr fun i hi => congrArg Prod.fst (hget i hi)]
  exact List.map_congr_left fun i hi => hget i (mem_augOrder.mp (List.mem_reverse.mp hi))

/-- **The probabilities are in order.** -/
theorem prediction_bounds (cal : List (S × Bool)) (ts : S) :
    0 ≤ (prediction K cal ts).1 ∧ (prediction K cal ts).1 ≤ (prediction K cal ts).2 ∧
      (prediction K cal ts).2 ≤ 1 := by
  have hw : ∀ j < cal.length + 1, (0 : K) < (fun _ => 1) j := fun _ _ => one_pos
  have hlt := testPosition_lt cal ts (ts, true)
  unfold prediction
  simp only [vennAbersRun_eq_maxMin, sortedCal_default cal (ts, false) (ts, true)]
  refine ⟨?_, maxMin_mono hw (fun j _ => runLabels_le _ ts j) hlt, ?_⟩
  · calc (0 : K) = maxMin (fun _ => 0) (fun _ => 1) (cal.length + 1) _ hlt :=
        (maxMin_const hw 0 hlt).symm
      _ ≤ _ := maxMin_mono hw (fun j _ => (runLabels_mem _ ts false j).1) hlt
  · calc _ ≤ maxMin (fun _ => (1 : K)) (fun _ => 1) (cal.length + 1) _ hlt :=
        maxMin_mono hw (fun j _ => (runLabels_mem _ ts true j).2) hlt
      _ = 1 := maxMin_const hw 1 hlt

/-- **Venn-ABERS**: the calibration points can be given in any order when those with equal
scores have equal labels, and the probabilities are in order always. -/
theorem vennAbersPredict_multiset (cal : List (S × Bool)) :
    (TiesAgree cal → ∀ cal' : List (S × Bool), cal'.Perm cal → ∀ testScores : List S,
      (vennAbersPredict cal' testScores : List (K × K)) = vennAbersPredict cal testScores) ∧
    ∀ testScores : List S, ∀ p ∈ (vennAbersPredict cal testScores : List (K × K)),
      0 ≤ p.1 ∧ p.1 ≤ p.2 ∧ p.2 ≤ 1 := by
  constructor
  · intro h cal' hperm testScores
    rw [vennAbersPredict_eq_map, vennAbersPredict_eq_map]
    apply List.map_congr_left
    intro ts _
    exact Prod.ext (vennAbersRun_perm h hperm ts false _ _) (vennAbersRun_perm h hperm ts true _ _)
  · intro testScores p hp
    rw [vennAbersPredict_eq_map] at hp
    obtain ⟨ts, -, rfl⟩ := List.mem_map.mp hp
    exact prediction_bounds cal ts

/-- Points with different scores. -/
theorem vennAbersPredict_multiset_distinct :
    (vennAbersPredict [((1 : ℚ), true), (0, false)] [(0 : ℚ)] : List (ℚ × ℚ)) =
      vennAbersPredict [(0, false), (1, true)] [0] :=
  (vennAbersPredict_multiset [((0 : ℚ), false), (1, true)]).1 (by unfold TiesAgree; decide)
    [(1, true), (0, false)] (.swap _ _ _) [0]

/-- Two calibration points with the same score and different labels. -/
theorem not_vennAbersPredict_perm :
    ¬ ∀ cal cal' : List (ℚ × Bool), cal'.Perm cal → ∀ testScores : List ℚ,
      (vennAbersPredict cal' testScores : List (ℚ × ℚ)) = vennAbersPredict cal testScores := by
  intro h
  have heq := h [(0, true), (0, false)] [(0, false), (0, true)] (.swap _ _ _) [0]
  exact absurd heq (by decide +kernel)

end Lush.Conformal
