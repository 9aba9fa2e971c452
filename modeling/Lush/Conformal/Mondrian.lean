import Lush.Conformal.JackknifePlus

/-!
# Mondrian prediction sets

`conformal-mondrian-classify` gathers the scores of the calibration points in one list for
each class, with `nconc1`, and finds a threshold for each class.  The lists are empty at first,
and an empty list cannot be changed in place.
-/

namespace Lush.Conformal

variable {K : Type} [Field K] [LinearOrder K] {D : Type} {k n t : ℕ}

/-! ## The code -/

/-- `nconc1`: what the list of the caller is afterwards, and the result.  An empty list has
no cell that could be changed. -/
def nconc1 {α : Type} (l : List α) (s : α) : List α × List α :=
  match l with
  | [] => ([], [s])
  | a :: l => (a :: l ++ [s], a :: l ++ [s])

/-- A function that gives a matrix of probabilities: a row for each point, and a column for
each of `k + 1` classes. -/
structure ProbaFn (D K : Type) [Field K] [LinearOrder K] (k : ℕ) where
  fn : (m : ℕ) → (Fin m → D) → Fin m → Fin (k + 1) → K
  nonneg : ∀ m data i c, 0 ≤ fn m data i c
  le_one : ∀ m data i c, fn m data i c ≤ 1

/-- `max-label`. -/
def maxLabel (calLabels : Fin n → Fin (k + 1)) : Fin (k + 1) :=
  (List.finRange n).foldl (fun m i => if m < calLabels i then calLabels i else m)
    ⟨0, k.succ_pos⟩

/-- The classes from `0` to `max-label`. -/
def classes (calLabels : Fin n → Fin (k + 1)) : List (Fin (k + 1)) :=
  (List.finRange (k + 1)).filter (· ≤ maxLabel calLabels)

/-- `class-scores`, before the scores are gathered. -/
def emptyScores (calLabels : Fin n → Fin (k + 1)) : List (List K) :=
  (classes calLabels).foldl (fun classScores _ => (nconc1 classScores []).2) []

/-- The score of a calibration point is put in the list of its class. -/
def gatherScore (calProba : Fin n → Fin (k + 1) → K) (calLabels : Fin n → Fin (k + 1))
    (classScores : List (List K)) (i : Fin n) : List (List K) :=
  let c := calLabels i
  let score := 1 - calProba i c
  let clist := classScores.getD c []
  classScores.set c (nconc1 clist score).1

/-- `class-scores`. -/
def classScores (calProba : Fin n → Fin (k + 1) → K) (calLabels : Fin n → Fin (k + 1)) :
    List (List K) :=
  (List.finRange n).foldl (gatherScore calProba calLabels) (emptyScores calLabels)

/-- The threshold of a class. -/
def classThreshold [FloorRing K] (scoresList : List K) (alpha : K) : K :=
  let nc := scoresList.length
  if nc = 0 then 1
  else
    let sv := scoresList.insertionSort (· ≤ ·)
    let qIdx := min ((nc : ℤ) - 1) (truncate ((nc + 1) * (1 - alpha)))
    sv.getD qIdx.toNat 0

/-- `conformal-mondrian-classify`. -/
def conformalMondrianClassify [FloorRing K] (probaFn : ProbaFn D K k) (calData : Fin n → D)
    (calLabels : Fin n → Fin (k + 1)) (testData : Fin t → D) (alpha : K) :
    List (List (Fin (k + 1))) :=
  let classScores := classScores (probaFn.fn n calData) calLabels
  let testProba := probaFn.fn t testData
  (List.finRange t).foldl (fun result i =>
    let predSet := (classes calLabels).foldl (fun predSet c =>
      if 1 - testProba i c ≤ classThreshold (classScores.getD c []) alpha
      then (nconc1 predSet c).2 else predSet) []
    (nconc1 result predSet).2) []

/-! ## What it is to compute -/

/-- The scores of the calibration points of a class. -/
def scoresOf (calProba : Fin n → Fin (k + 1) → K) (calLabels : Fin n → Fin (k + 1))
    (c : Fin (k + 1)) : List K :=
  ((List.finRange n).filter (calLabels · = c)).map fun i => 1 - calProba i (calLabels i)

/-- The rank of the threshold among `nc` scores, counted from `1`. -/
def rank [FloorRing K] (nc : ℕ) (alpha : K) : ℕ := min nc (⌊((nc : K) + 1) * (1 - alpha)⌋₊ + 1)

/-- A class is in the prediction set of a point where its probability is `p`. -/
def Included [FloorRing K] (scores : List K) (alpha p : K) : Prop :=
  scores.length = 0 ∨
    1 - p ≤ (scores.insertionSort (· ≤ ·)).getD (rank scores.length alpha - 1) 0

instance [FloorRing K] (scores : List K) (alpha p : K) : Decidable (Included scores alpha p) :=
  inferInstanceAs (Decidable (_ ∨ _))

/-- The prediction sets are those of the quantiles of the classes. -/
def Mondrian [FloorRing K] (probaFn : ProbaFn D K k) (calData : Fin n → D)
    (calLabels : Fin n → Fin (k + 1)) (testData : Fin t → D) (alpha : K) : Prop :=
  ∀ (i : Fin t) (c : Fin (k + 1)),
    c ∈ (conformalMondrianClassify probaFn calData calLabels testData alpha).getD i [] ↔
      Included (scoresOf (probaFn.fn n calData) calLabels c) alpha (probaFn.fn t testData i c)

/-! ## What it computes -/

section
variable {α : Type}

theorem nconc1_snd (l : List α) (s : α) : (nconc1 l s).2 = l ++ [s] := by
  cases l <;> rfl

/-- Results of a loop that are put at the end of a list. -/
theorem foldl_nconc1 {β : Type} (f : β → α) (l : List β) (acc : List α) :
    l.foldl (fun acc b => (nconc1 acc (f b)).2) acc = acc ++ l.map f := by
  induction l generalizing acc with
  | nil => exact (List.append_nil acc).symm
  | cons b l ih => rw [List.foldl_cons, ih, nconc1_snd, List.append_assoc]; rfl

theorem foldl_nconc1_filter (p : α → Prop) [DecidablePred p] (l acc : List α) :
    l.foldl (fun acc b => if p b then (nconc1 acc b).2 else acc) acc = acc ++ l.filter p := by
  induction l generalizing acc with
  | nil => exact (List.append_nil acc).symm
  | cons b l ih =>
      rw [List.foldl_cons, ih]
      by_cases hb : p b
      · rw [if_pos hb, nconc1_snd, List.filter_cons_of_pos (by simpa using hb),
          List.append_assoc]
        rfl
      · rw [if_neg hb, List.filter_cons_of_neg (by simpa using hb)]

end

variable {calProba : Fin n → Fin (k + 1) → K} {calLabels : Fin n → Fin (k + 1)} {c : Fin (k + 1)}

omit [LinearOrder K] in
/-- A score does not reach an empty list. -/
theorem gatherScore_eq_nil {scores : List (List K)} (h : ∀ l ∈ scores, l = []) (i : Fin n) :
    ∀ l ∈ gatherScore calProba calLabels scores i, l = [] := by
  intro l hl
  rcases List.mem_or_eq_of_mem_set hl with hl | rfl
  · exact h l hl
  · have hclist : scores.getD (calLabels i) [] = [] := by
      rcases Nat.lt_or_ge (calLabels i) scores.length with hlt | hge
      · rw [List.getD_eq_getElem _ _ hlt]
        exact h _ (List.getElem_mem hlt)
      · exact List.getD_eq_default _ _ hge
    rw [hclist]
    rfl

omit [LinearOrder K] in
/-- **No score reaches the list of its class.** -/
theorem classScores_eq_nil : ∀ l ∈ classScores calProba calLabels, l = [] := by
  have hgather : ∀ (is : List (Fin n)) (scores : List (List K)), (∀ l ∈ scores, l = []) →
      ∀ l ∈ is.foldl (gatherScore calProba calLabels) scores, l = [] := by
    intro is
    induction is with
    | nil => exact fun _ h => h
    | cons i is ih => exact fun scores h => ih _ (gatherScore_eq_nil h i)
  apply hgather
  unfold emptyScores
  rw [foldl_nconc1 (fun _ => []), List.nil_append]
  intro l hl
  obtain ⟨c, -, rfl⟩ := List.mem_map.mp hl
  rfl

omit [LinearOrder K] in
theorem getD_classScores (calProba : Fin n → Fin (k + 1) → K)
    (calLabels : Fin n → Fin (k + 1)) (c : ℕ) :
    (classScores calProba calLabels).getD c [] = [] := by
  rcases Nat.lt_or_ge c (classScores calProba calLabels).length with hlt | hge
  · rw [List.getD_eq_getElem _ _ hlt]
    exact classScores_eq_nil _ (List.getElem_mem hlt)
  · exact List.getD_eq_default _ _ hge

theorem mem_classes : c ∈ classes calLabels ↔ c ≤ maxLabel calLabels := by
  simp [classes]

theorem le_maxLabel (calLabels : Fin n → Fin (k + 1)) (i : Fin n) :
    calLabels i ≤ maxLabel calLabels := by
  have hfold : ∀ (is : List (Fin n)) (m : Fin (k + 1)),
      let r := is.foldl (fun m i => if m < calLabels i then calLabels i else m) m
      m ≤ r ∧ ∀ i ∈ is, calLabels i ≤ r := by
    intro is
    induction is with
    | nil => exact fun m => ⟨le_rfl, by simp⟩
    | cons i is ih =>
        intro m
        obtain ⟨hm, his⟩ := ih (if m < calLabels i then calLabels i else m)
        have hstep : m ≤ (if m < calLabels i then calLabels i else m) ∧
            calLabels i ≤ (if m < calLabels i then calLabels i else m) := by
          split_ifs with hlt
          · exact ⟨hlt.le, le_rfl⟩
          · exact ⟨le_rfl, not_lt.mp hlt⟩
        refine ⟨hstep.1.trans hm, fun j hj => ?_⟩
        rcases List.mem_cons.mp hj with rfl | hj
        · exact hstep.2.trans hm
        · exact his j hj
  exact (hfold (List.finRange n) 0).2 i (List.mem_finRange i)

variable [FloorRing K] [IsStrictOrderedRing K]

/-- **Every prediction set has all classes up to the greatest label.** -/
theorem getD_conformalMondrianClassify (probaFn : ProbaFn D K k) (calData : Fin n → D)
    (calLabels : Fin n → Fin (k + 1)) (testData : Fin t → D) (alpha : K) (i : Fin t) :
    (conformalMondrianClassify probaFn calData calLabels testData alpha).getD i [] =
      classes calLabels := by
  have hall : ∀ i : Fin t, (classes calLabels).filter
      (fun c => 1 - probaFn.fn t testData i c ≤ 1) = classes calLabels := by
    intro i
    apply List.filter_eq_self.mpr
    intro c _
    simpa using probaFn.nonneg t testData i c
  unfold conformalMondrianClassify
  simp only [getD_classScores, classThreshold, List.length_nil, if_true]
  rw [foldl_nconc1 (fun i => (classes calLabels).foldl (fun predSet c =>
    if 1 - probaFn.fn t testData i c ≤ 1 then (nconc1 predSet c).2 else predSet) [])]
  simp only [foldl_nconc1_filter, List.nil_append, hall]
  rw [List.getD_eq_getElem _ _ (by simp), List.getElem_map]

omit [LinearOrder K] [FloorRing K] [IsStrictOrderedRing K] in
theorem scoresOf_eq_nil (calProba : Fin n → Fin (k + 1) → K)
    (hc : ¬ c ≤ maxLabel calLabels) : scoresOf calProba calLabels c = [] := by
  unfold scoresOf
  rw [List.map_eq_nil_iff, List.filter_eq_nil_iff]
  intro i _ hi
  exact hc ((of_decide_eq_true hi) ▸ le_maxLabel calLabels i)

/-- **When the prediction sets are those of the quantiles**: all of them have all classes,
and some calibration point is of the last class. -/
theorem mondrian_iff (probaFn : ProbaFn D K k) (calData : Fin n → D)
    (calLabels : Fin n → Fin (k + 1)) (testData : Fin t → D) (alpha : K) :
    Mondrian probaFn calData calLabels testData alpha ↔
      ∀ (i : Fin t) (c : Fin (k + 1)), c ≤ maxLabel calLabels ∧
        Included (scoresOf (probaFn.fn n calData) calLabels c) alpha
          (probaFn.fn t testData i c) := by
  unfold Mondrian
  simp only [getD_conformalMondrianClassify, mem_classes]
  refine forall₂_congr fun i c => ?_
  by_cases hc : c ≤ maxLabel calLabels
  · simp only [hc, true_iff, true_and]
  · have hincluded : Included (scoresOf (probaFn.fn n calData) calLabels c) alpha
        (probaFn.fn t testData i c) := by
      rw [scoresOf_eq_nil _ hc]
      exact Or.inl rfl
    simp only [hc, hincluded, false_iff, not_true, false_and]

/-- The probabilities of two classes, for points that are known to be of one of them. -/
def certain : ProbaFn Bool ℚ 1 where
  fn _ data i c := if data i = (c.val = 0 : Bool) then 1 else 0
  nonneg m data i c := by split_ifs <;> decide
  le_one m data i c := by split_ifs <;> decide

/-- Calibration points that are of the other class: nothing is excluded. -/
theorem mondrian_iff_certain :
    Mondrian certain ![true, false] ![1, 0] (fun _ : Fin 1 => true) (1 / 2) :=
  (mondrian_iff certain ![true, false] ![1, 0] (fun _ : Fin 1 => true) (1 / 2)).mpr
    (by decide +kernel)

/-- The calibration point is of the first class, and the test point of the second one. -/
theorem not_mondrian_certain :
    ¬ Mondrian certain (fun _ : Fin 1 => true) (fun _ => 0) (fun _ : Fin 1 => false) (1 / 2) := by
  unfold Mondrian
  decide +kernel

end Lush.Conformal
