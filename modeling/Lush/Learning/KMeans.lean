import Lush.Basic
import Mathlib

/-!
# K-means

`kmeans` runs Lloyd's iterations from several random starts, and keeps the best result.  An
iteration gives every point the nearest center, and moves each center to the mean of its points;
a center without points goes to a point far from its own center.

The arithmetic is exact.  An iteration never increases the inertia (`inertia_lloydCenters`),
whatever becomes of the centers without points, since the mean of some points is the best center
for them.
-/

namespace Lush.Learning

variable {K : Type} [Field K] [LinearOrder K] {n p k : ℕ}

/-! ## The code -/

/-- The rows of a matrix; the numbers of its rows and columns are given apart. -/
abbrev Rows (K : Type) := ℕ → ℕ → K

/-- `_km-distances`: the squared distances from the points to the centers. -/
def kmDistances (p : ℕ) (x centers : Rows K) : Rows K := fun i c =>
  (List.range p).foldl (fun d j => d + (x i j - centers c j) * (x i j - centers c j)) 0

/-- The loop over the centers in `_km-assign`, which starts with the first one. -/
def nearest (k : ℕ) (d : ℕ → K) : K × ℕ :=
  (List.range' 1 (k - 1)).foldl (fun best c => if d c < best.1 then (d c, c) else best) (d 0, 0)

/-- `_km-assign`: the labels and the inertia. -/
def kmAssign (n k : ℕ) (dists : Rows K) : (ℕ → ℕ) × K :=
  (fun i => (nearest k (dists i)).2,
    (List.range n).foldl (fun inertia i => inertia + (nearest k (dists i)).1) 0)

/-- The loop over the points in `_km-update-centers`: the counts and the sums. -/
def accumulate (x : Rows K) (labels : ℕ → ℕ) (s : (ℕ → ℕ) × Rows K) (i : ℕ) :
    (ℕ → ℕ) × Rows K :=
  (Function.update s.1 (labels i) (s.1 (labels i) + 1),
    Function.update s.2 (labels i) fun j => s.2 (labels i) j + x i j)

/-- `_km-update-centers`: the counts and the means. -/
def kmUpdateCenters (n : ℕ) (x : Rows K) (labels : ℕ → ℕ) : (ℕ → ℕ) × Rows K :=
  let s := (List.range n).foldl (accumulate x labels) (fun _ => 0, fun _ _ => 0)
  (s.1, fun c j => if 0 < s.1 c then s.2 c j * (1 / (s.1 c : K)) else s.2 c j)

/-- The point that is farthest from its center. -/
def farthest (n : ℕ) (dists : Rows K) (labels : ℕ → ℕ) : ℕ :=
  ((List.range n).foldl
    (fun (most : K × ℕ) i => if most.1 < dists i (labels i) then (dists i (labels i), i) else most)
    (0, 0)).2

/-- The centers after an iteration of `kmeans`. -/
def lloydCenters (n p k : ℕ) (x centers : Rows K) : Rows K :=
  let dists := kmDistances p x centers
  let labels := (kmAssign n k dists).1
  let s := kmUpdateCenters n x labels
  fun c j => if s.1 c = 0 then x (farthest n dists labels) j else s.2 c j

/-- The labels and the inertia for some centers. -/
def assignment (n p k : ℕ) (x centers : Rows K) : (ℕ → ℕ) × K :=
  kmAssign n k (kmDistances p x centers)

/-- The iterations: at most `fuel` more, until the inertia changes little. -/
def lloyd (n p k : ℕ) (x : Rows K) (tol : K) : ℕ → K → Rows K → Rows K
  | 0, _, centers => centers
  | fuel + 1, prevInertia, centers =>
      let inertia := (assignment n p k x centers).2
      let centers' := lloydCenters n p k x centers
      if |prevInertia - inertia| < tol * max 1 |inertia| then centers'
      else lloyd n p k x tol fuel inertia centers'

/-- The result of `kmeans`. -/
structure Clustering (K : Type) where
  centers : Rows K
  labels : ℕ → ℕ
  inertia : K

/-- A run of `kmeans` from the centers of `kmeans-pp-init`. -/
def lloydRun (n p k : ℕ) (x : Rows K) (maxIter : ℕ) (tol : K) (start : Rows K) : Clustering K :=
  let centers := lloyd n p k x tol maxIter (10 ^ 308 : ℕ) start
  ⟨centers, (assignment n p k x centers).1, (assignment n p k x centers).2⟩

/-- The better one of the best result and a run. -/
def keepBest (n p k : ℕ) (x : Rows K) (maxIter : ℕ) (tol : K)
    (best : Option (Clustering K) × K) (start : Rows K) : Option (Clustering K) × K :=
  let run := lloydRun n p k x maxIter tol start
  if run.inertia < best.2 then (some run, run.inertia) else best

/-- `kmeans`, with the centers that `kmeans-pp-init` finds for each run. -/
def kmeans (n p k : ℕ) (x : Rows K) (maxIter : ℕ) (tol : K) (starts : List (Rows K)) :
    Except Fault (Option (Clustering K)) :=
  if n < k then .error (.error "more clusters than data points")
  else .ok (starts.foldl (keepBest n p k x maxIter tol) (none, (10 ^ 308 : ℕ))).1

/-! ## Distances and labels -/

omit [LinearOrder K] in
theorem foldl_add (f : ℕ → K) (n : ℕ) :
    (List.range n).foldl (fun s i => s + f i) 0 = ∑ i ∈ Finset.range n, f i := by
  induction n with
  | zero => rfl
  | succ n ih =>
      rw [List.range_succ, List.foldl_append, ih, Finset.sum_range_succ]
      rfl

variable {x centers : Rows K} {d : ℕ → K} {labels : ℕ → ℕ}

omit [LinearOrder K] in
theorem kmDistances_eq (i c : ℕ) : kmDistances p x centers i c =
    ∑ j ∈ Finset.range p, (x i j - centers c j) * (x i j - centers c j) :=
  foldl_add _ p

/-- What the loop over the centers has found. -/
structure Nearest (d : ℕ → K) (k : ℕ) (best : K × ℕ) : Prop where
  value : best.1 = d best.2
  lt : best.2 < k
  least : ∀ c < k, best.1 ≤ d c

omit [Field K] in
theorem Nearest.next {best : K × ℕ} (h : Nearest d k best) :
    Nearest d (k + 1) (if d k < best.1 then (d k, k) else best) := by
  split_ifs with hlt
  · refine ⟨rfl, k.lt_succ_self, fun c hc => ?_⟩
    rcases Nat.lt_succ_iff_lt_or_eq.mp hc with hc | rfl
    · exact hlt.le.trans (h.least c hc)
    · exact le_rfl
  · refine ⟨h.value, h.lt.trans k.lt_succ_self, fun c hc => ?_⟩
    rcases Nat.lt_succ_iff_lt_or_eq.mp hc with hc | rfl
    · exact h.least c hc
    · exact not_lt.mp hlt

omit [Field K] in
/-- **The nearest center** is found. -/
theorem nearest_spec (d : ℕ → K) (hk : 0 < k) : Nearest d k (nearest k d) := by
  obtain ⟨m, rfl⟩ := Nat.exists_eq_add_one.mpr hk
  unfold nearest
  rw [Nat.add_sub_cancel]
  induction m with
  | zero =>
      refine ⟨rfl, Nat.one_pos, fun c hc => ?_⟩
      obtain rfl := Nat.lt_one_iff.mp hc
      exact le_rfl
  | succ m ih =>
      rw [List.range'_1_concat, List.foldl_append, Nat.add_comm 1 m]
      exact (ih m.succ_pos).next

/-- The cost of some labels: the squared distances to the centers of the labels. -/
def cost (n p : ℕ) (x centers : Rows K) (labels : ℕ → ℕ) : K :=
  ∑ i ∈ Finset.range n, kmDistances p x centers i (labels i)

/-- The inertia is the cost of the labels. -/
theorem inertia_eq (hk : 0 < k) : (assignment n p k x centers).2 =
    cost n p x centers (assignment n p k x centers).1 := by
  have hvalue : ∀ i ∈ Finset.range n, (nearest k (kmDistances p x centers i)).1 =
      kmDistances p x centers i ((assignment n p k x centers).1 i) :=
    fun i _ => (nearest_spec _ hk).value
  rw [cost, ← Finset.sum_congr rfl hvalue]
  exact foldl_add _ n

/-- **No labels cost less** than those of the nearest centers. -/
theorem inertia_le_cost [IsStrictOrderedRing K] (hlabels : ∀ i < n, labels i < k) :
    (assignment n p k x centers).2 ≤ cost n p x centers labels := by
  calc (assignment n p k x centers).2
      = ∑ i ∈ Finset.range n, (nearest k (kmDistances p x centers i)).1 := foldl_add _ n
    _ ≤ cost n p x centers labels := by
        refine Finset.sum_le_sum fun i hi => ?_
        have hlt := hlabels i (Finset.mem_range.mp hi)
        exact (nearest_spec _ (Nat.zero_lt_of_lt hlt)).least _ hlt

/-! ## Means -/

/-- The points with a label. -/
def cluster (n : ℕ) (labels : ℕ → ℕ) (c : ℕ) : Finset ℕ :=
  (Finset.range n).filter (labels · = c)

theorem cluster_succ (n c : ℕ) : cluster (n + 1) labels c =
    if labels n = c then insert n (cluster n labels c) else cluster n labels c := by
  rw [cluster, Finset.range_add_one, Finset.filter_insert]
  rfl

theorem notMem_cluster (n c : ℕ) : n ∉ cluster n labels c := fun h =>
  Finset.notMem_range_self (Finset.mem_filter.mp h).1

omit [LinearOrder K] in
/-- The loop over the points counts and adds up the points of each label. -/
theorem accumulate_eq (n : ℕ) :
    (List.range n).foldl (accumulate x labels) (fun _ => 0, fun _ _ => 0) =
      (fun c => (cluster n labels c).card, fun c j => ∑ i ∈ cluster n labels c, x i j) := by
  induction n with
  | zero => rfl
  | succ n ih =>
      rw [List.range_succ, List.foldl_append, ih, List.foldl_cons, List.foldl_nil, accumulate]
      have hcard : ∀ c, (cluster (n + 1) labels c).card =
          Function.update (fun c => (cluster n labels c).card) (labels n)
            ((cluster n labels (labels n)).card + 1) c := by
        intro c
        rw [cluster_succ, Function.update_apply]
        split_ifs with h h' h'
        · rw [Finset.card_insert_of_notMem (notMem_cluster n c), h]
        · exact absurd h.symm h'
        · exact absurd h'.symm h
        · rfl
      have hsum : ∀ c j, ∑ i ∈ cluster (n + 1) labels c, x i j =
          Function.update (fun c j => ∑ i ∈ cluster n labels c, x i j) (labels n)
            (fun j => ∑ i ∈ cluster n labels (labels n), x i j + x n j) c j := by
        intro c j
        rw [cluster_succ, Function.update_apply]
        split_ifs with h h' h'
        · rw [Finset.sum_insert (notMem_cluster n c), h, add_comm]
        · exact absurd h.symm h'
        · exact absurd h'.symm h
        · rfl
      exact Prod.ext (funext fun c => (hcard c).symm) (funext fun c => funext fun j => (hsum c j).symm)

variable [IsStrictOrderedRing K]

/-- **The mean is the best center** of some numbers. -/
theorem sum_sq_mean_le (s : Finset ℕ) (v : ℕ → K) (m : K) :
    ∑ i ∈ s, (v i - (∑ i ∈ s, v i) * (1 / (s.card : K))) *
        (v i - (∑ i ∈ s, v i) * (1 / (s.card : K))) ≤
      ∑ i ∈ s, (v i - m) * (v i - m) := by
  rcases s.eq_empty_or_nonempty with rfl | hs
  · rw [Finset.sum_empty, Finset.sum_empty]
  · have hcard : (s.card : K) ≠ 0 := Nat.cast_ne_zero.mpr (Finset.card_ne_zero.mpr hs)
    set mean := (∑ i ∈ s, v i) * (1 / (s.card : K)) with hmean
    have htotal : ∑ i ∈ s, v i = s.card * mean := by
      rw [hmean]
      field_simp
    have hdiff : ∑ i ∈ s, (v i - m) * (v i - m) - ∑ i ∈ s, (v i - mean) * (v i - mean) =
        s.card * ((mean - m) * (mean - m)) := by
      have hterm : ∀ i ∈ s, (v i - m) * (v i - m) - (v i - mean) * (v i - mean) =
          2 * (mean - m) * v i + (m * m - mean * mean) := fun i _ => by ring
      rw [← Finset.sum_sub_distrib, Finset.sum_congr rfl hterm, Finset.sum_add_distrib,
        ← Finset.mul_sum, Finset.sum_const, nsmul_eq_mul, htotal]
      ring
    have hnonneg : 0 ≤ (s.card : K) * ((mean - m) * (mean - m)) :=
      mul_nonneg (Nat.cast_nonneg _) (mul_self_nonneg _)
    linarith

/-! ## Iterations -/

omit [LinearOrder K] [IsStrictOrderedRing K] in
/-- The cost by columns and labels. -/
theorem cost_eq_sum_cluster (hlabels : ∀ i < n, labels i < k) : cost n p x centers labels =
    ∑ c ∈ Finset.range k, ∑ j ∈ Finset.range p, ∑ i ∈ cluster n labels c,
      (x i j - centers c j) * (x i j - centers c j) := by
  have hmaps : ∀ i ∈ Finset.range n, labels i ∈ Finset.range k := fun i hi =>
    Finset.mem_range.mpr (hlabels i (Finset.mem_range.mp hi))
  rw [cost, ← Finset.sum_fiberwise_of_maps_to hmaps]
  refine Finset.sum_congr rfl fun c _ => ?_
  rw [Finset.sum_comm]
  refine Finset.sum_congr rfl fun i hi => ?_
  rw [kmDistances_eq, (Finset.mem_filter.mp hi).2]

omit [IsStrictOrderedRing K] in
/-- A center that has points moves to their mean. -/
theorem lloydCenters_eq {c : ℕ} (h : (cluster n (assignment n p k x centers).1 c).Nonempty) (j : ℕ) :
    lloydCenters n p k x centers c j =
      (∑ i ∈ cluster n (assignment n p k x centers).1 c, x i j) *
        (1 / ((cluster n (assignment n p k x centers).1 c).card : K)) := by
  have hcount : (kmUpdateCenters n x (assignment n p k x centers).1).1 c ≠ 0 := by
    rw [kmUpdateCenters, accumulate_eq]
    exact Finset.card_ne_zero.mpr h
  have hcenter : lloydCenters n p k x centers c j =
      (kmUpdateCenters n x (assignment n p k x centers).1).2 c j := if_neg hcount
  rw [hcenter, kmUpdateCenters, accumulate_eq]
  exact if_pos (Finset.card_pos.mpr h)

/-- **Moving the centers** does not make the labels cost more. -/
theorem cost_lloydCenters (hk : 0 < k) :
    cost n p x (lloydCenters n p k x centers) (assignment n p k x centers).1 ≤
      cost n p x centers (assignment n p k x centers).1 := by
  have hlabels : ∀ i < n, (assignment n p k x centers).1 i < k := fun i _ => (nearest_spec _ hk).lt
  rw [cost_eq_sum_cluster hlabels, cost_eq_sum_cluster hlabels]
  refine Finset.sum_le_sum fun c _ => Finset.sum_le_sum fun j _ => ?_
  rcases (cluster n (assignment n p k x centers).1 c).eq_empty_or_nonempty with hempty | hpoints
  · rw [hempty, Finset.sum_empty, Finset.sum_empty]
  · rw [lloydCenters_eq hpoints]
    exact sum_sq_mean_le _ (fun i => x i j) _

/-- **An iteration** does not increase the inertia. -/
theorem inertia_lloydCenters (hk : 0 < k) :
    (assignment n p k x (lloydCenters n p k x centers)).2 ≤ (assignment n p k x centers).2 :=
  calc (assignment n p k x (lloydCenters n p k x centers)).2
      ≤ cost n p x (lloydCenters n p k x centers) (assignment n p k x centers).1 :=
        inertia_le_cost fun _ _ => (nearest_spec _ hk).lt
    _ ≤ cost n p x centers (assignment n p k x centers).1 := cost_lloydCenters hk
    _ = (assignment n p k x centers).2 := (inertia_eq hk).symm

variable {tol : K} {maxIter : ℕ}

/-- **A run**, however long it is. -/
theorem inertia_lloyd (hk : 0 < k) (fuel : ℕ) (prevInertia : K) (centers : Rows K) :
    (assignment n p k x (lloyd n p k x tol fuel prevInertia centers)).2 ≤
      (assignment n p k x centers).2 := by
  induction fuel generalizing prevInertia centers with
  | zero => exact le_rfl
  | succ fuel ih =>
      rw [lloyd]
      split_ifs with hconverged
      · exact inertia_lloydCenters hk
      · exact (ih _ _).trans (inertia_lloydCenters hk)

/-! ## Results -/

/-- The labels are those of the nearest centers, and the inertia is the sum of the squared
distances to them. -/
structure Clusters (n p k : ℕ) (x : Rows K) (r : Clustering K) : Prop where
  labels_lt : ∀ i < n, r.labels i < k
  nearest : ∀ i < n, ∀ c < k,
    kmDistances p x r.centers i (r.labels i) ≤ kmDistances p x r.centers i c
  inertia : r.inertia = cost n p x r.centers r.labels

omit [IsStrictOrderedRing K] in
theorem clusters_lloydRun (hk : 0 < k) (start : Rows K) :
    Clusters n p k x (lloydRun n p k x maxIter tol start) where
  labels_lt := fun _ _ => (nearest_spec _ hk).lt
  nearest := fun i _ c hc => by
    have hspec := nearest_spec (kmDistances p x (lloydRun n p k x maxIter tol start).centers i) hk
    exact hspec.value.symm.trans_le (hspec.least c hc)
  inertia := inertia_eq hk

/-- What the runs from some starts have led to. -/
structure Best (n p k : ℕ) (x : Rows K) (starts : List (Rows K))
    (best : Option (Clustering K) × K) : Prop where
  clusters : ∀ r, best.1 = some r → Clusters n p k x r ∧ r.inertia = best.2
  none : best.1 = none → best.2 = (10 ^ 308 : ℕ)
  least : ∀ start ∈ starts, best.2 ≤ (assignment n p k x start).2

theorem Best.keep {best : Option (Clustering K) × K} {starts : List (Rows K)} (hk : 0 < k)
    (h : Best n p k x starts best) (start : Rows K) :
    Best n p k x (start :: starts) (keepBest n p k x maxIter tol best start) := by
  have hrun : (lloydRun n p k x maxIter tol start).inertia ≤ (assignment n p k x start).2 :=
    inertia_lloyd hk _ _ _
  unfold keepBest
  dsimp only
  split_ifs with hlt
  · refine ⟨fun r hr => ?_, fun hnone => (by cases hnone), ?_⟩
    · obtain rfl := Option.some.inj hr
      exact ⟨clusters_lloydRun hk start, rfl⟩
    · exact List.forall_mem_cons.mpr ⟨hrun, fun s hs => hlt.le.trans (h.least s hs)⟩
  · exact ⟨h.clusters, h.none,
      List.forall_mem_cons.mpr ⟨(not_lt.mp hlt).trans hrun, h.least⟩⟩

theorem best_foldl {best : Option (Clustering K) × K} {done starts : List (Rows K)} (hk : 0 < k)
    (h : Best n p k x done best) :
    Best n p k x (starts.reverse ++ done) (starts.foldl (keepBest n p k x maxIter tol) best) := by
  induction starts generalizing best done with
  | nil => exact h
  | cons start starts ih =>
      rw [List.foldl_cons, List.reverse_cons, List.append_assoc]
      exact ih (h.keep hk start)

/-- **K-means**: the inertia never increases from one iteration to the next; and the result, if
a run has an inertia below the initial bound, gives each point a nearest center and is at least
as good as the centers of every start. -/
theorem kmeans_improves (hk : 0 < k) (hn : k ≤ n) (starts : List (Rows K)) :
    (∀ start : Rows K, Antitone fun m => (assignment n p k x ((lloydCenters n p k x)^[m] start)).2) ∧
      ∃ result, kmeans n p k x maxIter tol starts = .ok result ∧
        (∀ r, result = some r → Clusters n p k x r ∧
          ∀ start ∈ starts, r.inertia ≤ (assignment n p k x start).2) ∧
        (result = none → ∀ start ∈ starts, ((10 ^ 308 : ℕ) : K) ≤ (assignment n p k x start).2) := by
  constructor
  · intro start
    refine antitone_nat_of_succ_le fun m => ?_
    rw [Function.iterate_succ_apply']
    exact inertia_lloydCenters hk
  · have hbest : Best n p k x (starts.reverse ++ [])
        (starts.foldl (keepBest n p k x maxIter tol) (none, (10 ^ 308 : ℕ))) :=
      best_foldl hk ⟨fun r hr => (by cases hr), fun _ => rfl, fun _ h => absurd h List.not_mem_nil⟩
    rw [List.append_nil] at hbest
    have hleast := fun start hstart => hbest.least start (List.mem_reverse.mpr hstart)
    refine ⟨_, if_neg (by omega), fun r hr => ?_, fun hnone => ?_⟩
    · obtain ⟨hclusters, heq⟩ := hbest.clusters r hr
      exact ⟨hclusters, by rwa [heq]⟩
    · rw [hbest.none hnone] at hleast
      exact hleast

/-- Four points on a line, from two centers at one end; the second one moves. -/
def linePoints : Rows ℚ := fun i _ => if i < 2 then i else i + 8

theorem kmeans_linePoints : ∃ r, kmeans 4 1 2 linePoints 5 0 [fun c _ => c] = .ok (some r) ∧
    Clusters 4 1 2 linePoints r ∧ r.inertia ≤ 181 := by
  obtain ⟨-, result, hresult, hsome, -⟩ := @kmeans_improves ℚ _ _ 4 1 2 linePoints _ 0 5
    (by decide) (by decide) [fun c _ => c]
  obtain ⟨r, hr⟩ : ∃ r, result = some r := by
    rw [← Option.isSome_iff_exists]
    have hvalue : (kmeans 4 1 2 linePoints 5 0 [fun c _ => (c : ℚ)]).toOption.bind
        (·.map (·.inertia)) = some 1 := by decide +kernel
    rw [hresult] at hvalue
    cases result with
    | none => cases hvalue
    | some r => rfl
  obtain ⟨hclusters, hleast⟩ := hsome r hr
  exact ⟨r, hr ▸ hresult, hclusters, (hleast _ List.mem_cons_self).trans (by decide +kernel)⟩

end Lush.Learning
