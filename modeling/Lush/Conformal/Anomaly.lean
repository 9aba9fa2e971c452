import Lush.Knn.Brute

/-!
# Anomalies

`conformal-anomaly-detect` compares the distance from a test point to its `k`-th nearest
training point with calibration scores.  The rows of `knn-search` do not have the point
itself, so that the score at the index `k` is the distance to the nearest point but `k`.
-/

namespace Lush.Conformal

open Knn

variable {K : Type} [Field K] [LinearOrder K] {n t d : ℕ}

/-! ## The code -/

/-- `cal-scores`. -/
def calScores (trainDists : Fin n → List (K × Fin n)) (kIdx : ℕ) : List K :=
  (List.finRange n).map fun i => ((trainDists i).map Prod.fst).getD kIdx 0

/-- `n-geq`. -/
def nGeq (sortedCal : List K) (testScore : K) : ℕ :=
  sortedCal.foldl (fun nGeq s => if testScore ≤ s then nGeq + 1 else nGeq) 0

/-- `pval`. -/
def pval (n nGeq : ℕ) : K := ((nGeq : K) + 1) / ((n : K) + 1)

/-- `conformal-anomaly-detect`. -/
def conformalAnomalyDetect (sqrt : K → K) (trainData : Fin n → Fin d → K)
    (testData : Fin t → Fin d → K) (k : ℕ) (alpha : K) : Except Fault (List ℕ) := do
  let kk1 := min (k + 1) (n - 1)
  let trainDists ← knnSearchBrute sqrt trainData kk1
  let kIdx := min (kk1 - 1) k
  let sortedCal := (calScores trainDists kIdx).insertionSort (· ≤ ·)
  .ok ((List.finRange t).map fun ti =>
    let dists := ((List.finRange n).map fun j =>
      pointDist sqrt (testData ti) (trainData j)).insertionSort (· ≤ ·)
    let testScore := dists.getD (min (n - 1) (k - 1)) 0
    if pval n (nGeq sortedCal testScore) < alpha then 1 else 0)

/-! ## What it is to compute -/

/-- The element of a rank in ascending order. -/
def nth (k : ℕ) (l : List K) : K := (l.insertionSort (· ≤ ·)).getD (k - 1) 0

/-- The distance from a training point to its `k`-th nearest other training point. -/
def trainScore (sqrt : K → K) (trainData : Fin n → Fin d → K) (k : ℕ) (i : Fin n) : K :=
  nth k (otherDists sqrt trainData i)

/-- The distance from a point to its `k`-th nearest training point. -/
def pointScore (sqrt : K → K) (trainData : Fin n → Fin d → K) (k : ℕ) (x : Fin d → K) : K :=
  nth k ((List.finRange n).map fun j => pointDist sqrt x (trainData j))

/-- How many of the scores are at least `s`. -/
def countGeq (score : Fin n → K) (s : K) : ℕ := ((List.finRange n).filter (s ≤ score ·)).length

/-- A point is flagged when the p-value of its score is less than `alpha`. -/
def Detects (sqrt : K → K) (trainData : Fin n → Fin d → K) (testData : Fin t → Fin d → K)
    (k : ℕ) (alpha : K) : Prop :=
  ∃ flags, conformalAnomalyDetect sqrt trainData testData k alpha = .ok flags ∧
    ∀ ti : Fin t, flags.getD ti 0 = 1 ↔
      pval n (countGeq (trainScore sqrt trainData k)
        (pointScore sqrt trainData k (testData ti))) < alpha

/-- The score that is used for a training point: the distance to one point more, where
`1e30` counts as a distance. -/
def usedScore (sqrt : K → K) (trainData : Fin n → Fin d → K) (k : ℕ) (i : Fin n) : K :=
  nth (k + 1) (farAway K :: otherDists sqrt trainData i)

/-! ## What it computes -/

variable {sqrt : K → K} {trainData : Fin n → Fin d → K} {testData : Fin t → Fin d → K} {k : ℕ}
  {alpha : K}

omit [Field K] in
theorem nGeq_eq (l : List K) (s : K) : nGeq l s = (l.filter (s ≤ ·)).length := by
  have hfold : ∀ m : ℕ, l.foldl (fun nGeq a => if s ≤ a then nGeq + 1 else nGeq) m =
      m + (l.filter (s ≤ ·)).length := by
    induction l with
    | nil => exact fun _ => rfl
    | cons a l ih =>
        intro m
        rw [List.foldl_cons, ih]
        by_cases ha : s ≤ a
        · rw [if_pos ha, List.filter_cons_of_pos (by simpa using ha), List.length_cons]
          omega
        · rw [if_neg ha, List.filter_cons_of_neg (by simpa using ha)]
  rw [nGeq, hfold, Nat.zero_add]

omit [Field K] in
/-- The order of the scores does not matter. -/
theorem nGeq_insertionSort (score : Fin n → K) (s : K) :
    nGeq (((List.finRange n).map score).insertionSort (· ≤ ·)) s = countGeq score s := by
  rw [nGeq_eq, ((List.perm_insertionSort _ _).filter _).length_eq, List.filter_map,
    List.length_map]
  rfl

theorem calScores_eq (hn : k + 2 ≤ n) :
    calScores (knnBruteSearch sqrt trainData (k + 1)) k =
      (List.finRange n).map (usedScore sqrt trainData k) := by
  apply List.map_congr_left
  intro i _
  have hlen : k < ((farAway K :: otherDists sqrt trainData i).insertionSort (· ≤ ·)).length := by
    rw [List.length_insertionSort, List.length_cons, length_otherDists]
    omega
  rw [map_knnBruteSearch, usedScore, nth, Nat.add_sub_cancel, List.getD_eq_getElem _ _ hlen,
    List.getD_eq_getElem _ _ (by rw [List.length_take]; omega), List.getElem_take]

/-- The flag of a point. -/
theorem conformalAnomalyDetect_ok (hk : 1 ≤ k) (hn : k + 2 ≤ n) :
    conformalAnomalyDetect sqrt trainData testData k alpha =
      .ok ((List.finRange t).map fun ti =>
        if pval n (countGeq (usedScore sqrt trainData k)
          (pointScore sqrt trainData k (testData ti))) < alpha then 1 else 0) := by
  have hkk : min (k + 1) (n - 1) = k + 1 := by omega
  have hidx : min (k + 1 - 1) k = k := by omega
  have htest : min (n - 1) (k - 1) = k - 1 := by omega
  have hsearch : knnSearchBrute sqrt trainData (k + 1) =
      .ok (knnBruteSearch sqrt trainData (k + 1)) := by
    have hmin : min ((k + 1 : ℕ) : ℤ) (n - 1) = (k + 1 : ℕ) := by omega
    unfold knnSearchBrute
    rw [hmin, if_neg (by omega)]
    rfl
  unfold conformalAnomalyDetect
  rw [hkk]
  simp only
  rw [hsearch]
  show Except.ok _ = _
  rw [hidx, htest, calScores_eq hn]
  simp only [nGeq_insertionSort]
  rfl

omit [Field K] in
/-- With one element more, an element of the old list moves up by one place at most. -/
theorem le_orderedInsert {l : List K} (hl : l.Pairwise (· ≤ ·)) (a : K) {i : ℕ} {x y : K}
    (hx : l[i]? = some x) (hy : (l.orderedInsert (· ≤ ·) a)[i + 1]? = some y) : x ≤ y := by
  induction l generalizing i with
  | nil => simp at hx
  | cons b l ih =>
      obtain ⟨hb, hl'⟩ := List.pairwise_cons.mp hl
      rw [List.orderedInsert_cons] at hy
      split_ifs at hy with hab
      · rw [List.getElem?_cons_succ, hx] at hy
        exact (Option.some.inj hy).le
      · rw [List.getElem?_cons_succ] at hy
        cases i with
        | zero =>
            obtain rfl : b = x := Option.some.inj hx
            rcases (List.mem_orderedInsert _).mp (List.mem_of_getElem? hy) with rfl | hmem
            · exact (not_le.mp hab).le
            · exact hb y hmem
        | succ i => exact ih hl' hx hy

/-- The score that is used is not less. -/
theorem trainScore_le (hk : 1 ≤ k) (hn : k + 2 ≤ n) (i : Fin n) :
    trainScore sqrt trainData k i ≤ usedScore sqrt trainData k i := by
  have hlen : k - 1 < ((otherDists sqrt trainData i).insertionSort (· ≤ ·)).length := by
    rw [List.length_insertionSort, length_otherDists]
    omega
  have hlen' : k < ((farAway K :: otherDists sqrt trainData i).insertionSort (· ≤ ·)).length := by
    rw [List.length_insertionSort, List.length_cons, length_otherDists]
    omega
  unfold trainScore usedScore nth
  rw [Nat.add_sub_cancel, List.getD_eq_getElem _ _ hlen, List.getD_eq_getElem _ _ hlen']
  apply le_orderedInsert (List.pairwise_insertionSort _ _) (farAway K)
    (List.getElem?_eq_getElem hlen)
  rw [Nat.sub_add_cancel hk, ← List.insertionSort_cons]
  exact List.getElem?_eq_getElem hlen'

variable [IsStrictOrderedRing K]

theorem pval_mono {a b : ℕ} (h : a ≤ b) : (pval n a : K) ≤ pval n b := by
  have hpos : (0 : K) < n + 1 := by positivity
  have hcast : (a : K) ≤ b := Nat.cast_le.mpr h
  exact div_le_div_of_nonneg_right (by linarith) hpos.le

/-- Three points on a line. -/
def threePoints : Fin 3 → Fin 1 → ℚ := ![![0], ![1], ![3]]

end Lush.Conformal
