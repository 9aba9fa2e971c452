import Lush.Basic
import Lush.Library.SimpleSorts

/-!
# The brute-force search

`_knn-brute-search` computes the distances from a point to all points, with `1e30` for the
point itself, and selects the smallest ones.  The square root is a parameter.
-/

namespace Lush.Knn

variable {K : Type} [Field K] [LinearOrder K] {n d : ℕ}

/-- The distance of two points, as it is computed. -/
def pointDist (sqrt : K → K) (x y : Fin d → K) : K := sqrt (∑ i, (x i - y i) * (x i - y i))

/-- `1e30`. -/
def farAway (K : Type) [Field K] : K := ((10 ^ 30 : ℕ) : K)

/-- `all_dist` and `all_idx` for a point. -/
def allDist (sqrt : K → K) (data : Fin n → Fin d → K) (i : Fin n) : List (K × Fin n) :=
  (List.finRange n).map fun j =>
    (if j = i then farAway K else pointDist sqrt (data i) (data j), j)

/-- `_knn-brute-search`: the distances and the indices of each row. -/
def knnBruteSearch (sqrt : K → K) (data : Fin n → Fin d → K) (k : ℕ) (i : Fin n) :
    List (K × Fin n) :=
  Selection.select Prod.fst k (allDist sqrt data i)

/-- `knn-search` with the method `"brute"`. -/
def knnSearchBrute (sqrt : K → K) (data : Fin n → Fin d → K) (k : ℕ) :
    Except Fault (Fin n → List (K × Fin n)) :=
  let kk := min (k : ℤ) (n - 1)
  if kk < 1 then .error (.error "knn-search: need at least 2 points")
  else .ok (knnBruteSearch sqrt data kk.toNat)

/-! ## Distances in order -/

/-- The distances from a point to the other points. -/
def otherDists (sqrt : K → K) (data : Fin n → Fin d → K) (i : Fin n) : List K :=
  ((List.finRange n).filter (· ≠ i)).map fun j => pointDist sqrt (data i) (data j)

omit [LinearOrder K] in
theorem perm_allDist (sqrt : K → K) (data : Fin n → Fin d → K) (i : Fin n) :
    ((allDist sqrt data i).map Prod.fst).Perm (farAway K :: otherDists sqrt data i) := by
  have hsplit : (List.finRange n).Perm (i :: (List.finRange n).filter (· ≠ i)) := by
    apply (List.perm_ext_iff_of_nodup (List.nodup_finRange n) ?_).mpr
    · intro j
      simp [eq_or_ne]
    · exact List.nodup_cons.mpr ⟨by simp, (List.nodup_finRange n).filter _⟩
  have hmap := hsplit.map fun j => if j = i then farAway K else pointDist sqrt (data i) (data j)
  rw [List.map_cons, if_pos rfl] at hmap
  unfold allDist otherDists
  rw [List.map_map]
  refine hmap.trans (.of_eq ?_)
  congr 1
  apply List.map_congr_left
  intro j hj
  exact if_neg (by simpa using hj)

/-- **A row of the search** has the smallest of the distances, and of `1e30`. -/
theorem map_knnBruteSearch (sqrt : K → K) (data : Fin n → Fin d → K) (k : ℕ) (i : Fin n) :
    (knnBruteSearch sqrt data k i).map Prod.fst =
      ((farAway K :: otherDists sqrt data i).insertionSort (· ≤ ·)).take k := by
  unfold knnBruteSearch
  rw [Selection.map_select, Selection.insertionSort_of_perm (perm_allDist sqrt data i)]

omit [LinearOrder K] in
theorem length_otherDists (sqrt : K → K) (data : Fin n → Fin d → K) (i : Fin n) :
    (otherDists sqrt data i).length = n - 1 := by
  have hperm := (perm_allDist sqrt data i).length_eq
  rw [List.length_cons, List.length_map, allDist, List.length_map, List.length_finRange] at hperm
  omega

end Lush.Knn
