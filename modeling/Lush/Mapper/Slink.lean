import Lush.Mapper.CutTree
import Lush.Mapper.Dbscan

/-!
# Single linkage

The first half of `mapper_slink` in `mapper-c.c`.  The points are added one after the other
to a forest of pointers, each with a level; what one round of the loop knows of the distances
is the least level at which a cluster below a point touches the new point (`touch`).

At every level the pointers at or below it lead from each point to the last point of its
cluster.  This is the invariant `Linkage`.
-/

namespace Lush.Mapper

variable {D : Type} [LinearOrder D]

/-- The arrays of `mapper_slink`. -/
structure Pointers (D : Type) where
  pi : ℕ → ℕ
  lambda : ℕ → D
  temp : ℕ → D

/-- The first loop of `_slink_update`, for the point `j`. -/
def slinkRelax (i j : ℕ) (s : Pointers D) : Pointers D :=
  let k := s.pi j
  if s.temp j ≤ s.lambda j then
    let temp := if s.lambda j < s.temp k then Function.update s.temp k (s.lambda j) else s.temp
    ⟨Function.update s.pi j i, Function.update s.lambda j (temp j), temp⟩
  else
    { s with temp := if s.temp j < s.temp k then Function.update s.temp k (s.temp j) else s.temp }

/-- The second loop of `_slink_update`, for the point `j`. -/
def slinkRedirect (i j : ℕ) (s : Pointers D) : Pointers D :=
  if s.lambda (s.pi j) ≤ s.lambda j then { s with pi := Function.update s.pi j i } else s

/-- The first `n` rounds of a loop. -/
def rounds {σ : Type} (body : ℕ → σ → σ) : ℕ → σ → σ
  | 0, s => s
  | n + 1, s => body n (rounds body n s)

/-- `_slink_update(i, temp, pi, lambda)`. -/
def slinkUpdate (i : ℕ) (s : Pointers D) : Pointers D :=
  rounds (slinkRedirect i) i (rounds (slinkRelax i) i s)

/-- A round of the loop, in which the point `i` is added; the two variants of the function
get the distances from a matrix or from the data. -/
def slinkAdd [OrderTop D] (distance : ℕ → ℕ → D) (i : ℕ) (s : Pointers D) : Pointers D :=
  slinkUpdate i
    { s with
      lambda := Function.update s.lambda i ⊤
      temp := rounds (fun j temp => Function.update temp j (distance i j)) i s.temp }

/-- The loop over the points. -/
def slinkPointers [OrderTop D] (distance : ℕ → ℕ → D) (nrows : ℕ) : Pointers D :=
  rounds (slinkAdd distance) nrows ⟨fun i => i, fun _ => ⊤, fun _ => ⊤⟩

/-- `mapper_slink(dm, nrows, ..)`, with the sort of the library. -/
def mapperSlink [OrderTop D] (qsort : List (ℕ × D) → List (ℕ × D)) (dm : ℕ → D) (nrows : ℕ) : List (Merge D) :=
  let s := slinkPointers (fun i j => dm (dmIdx i j)) nrows
  slinkPostprocess qsort nrows s.pi s.lambda

/-- `mapper_slink_data(data, nrows, ncols, metric, ..)`, with `metric(data, ncols, i, j)`. -/
def mapperSlinkData [OrderTop D] (qsort : List (ℕ × D) → List (ℕ × D)) (metric : ℕ → ℕ → D) (nrows : ℕ) :
    List (Merge D) :=
  let s := slinkPointers metric nrows
  slinkPostprocess qsort nrows s.pi s.lambda

/-- `mapper_distance_matrix(data, nrows, ncols, metric, dm)`. -/
def mapperDistanceMatrix (metric : ℕ → ℕ → D) (nrows : ℕ) (dm : ℕ → D) : ℕ → D :=
  rounds (fun i dm => rounds (fun j dm => Function.update dm (dmIdx i j) (metric i j)) i dm)
    nrows dm

/-! ## What an update does -/

/-- The least levels at which the clusters below the points touch the new point. -/
structure Touch (s : Pointers D) (distance : ℕ → D) (i : ℕ) (touch : ℕ → D) : Prop where
  le_distance : ∀ j < i, touch j ≤ distance j
  le_pointer : ∀ j < i, j < s.pi j → touch (s.pi j) ≤ max (s.lambda j) (touch j)
  attained : ∀ j < i, touch j = distance j ∨
    ∃ c < j, s.pi c = j ∧ touch j = max (s.lambda c) (touch c)

variable {s t u : Pointers D} {i j n : ℕ}

theorem slinkRelax_pi (i j : ℕ) (s : Pointers D) (x : ℕ) :
    (slinkRelax i j s).pi x = if x = j ∧ s.temp j ≤ s.lambda j then i else s.pi x := by
  unfold slinkRelax
  by_cases hx : x = j <;> by_cases hle : s.temp j ≤ s.lambda j <;> simp [hx, hle]

theorem slinkRelax_lambda (i j : ℕ) (s : Pointers D) (x : ℕ) :
    (slinkRelax i j s).lambda x =
      if x = j then min (s.lambda j) (s.temp j) else s.lambda x := by
  unfold slinkRelax
  by_cases hle : s.temp j ≤ s.lambda j
  · -- the new level of the pointer of `j` is none below that of `j`
    have htemp : (if s.lambda j < s.temp (s.pi j)
        then Function.update s.temp (s.pi j) (s.lambda j) else s.temp) j = s.temp j := by
      split_ifs with hlt
      · have hne : j ≠ s.pi j := by
          intro heq
          rw [← heq] at hlt
          exact absurd hle (not_le_of_gt hlt)
        rw [Function.update_of_ne hne]
      · rfl
    simp only [if_pos hle, htemp, min_eq_right hle]
    by_cases hx : x = j <;> simp [hx]
  · rw [if_neg hle]
    by_cases hx : x = j
    · rw [if_pos hx, hx, min_eq_left (not_le.mp hle).le]
    · rw [if_neg hx]

theorem slinkRelax_temp (i j : ℕ) (s : Pointers D) (k : ℕ) :
    (slinkRelax i j s).temp k =
      if k = s.pi j then min (s.temp k) (max (s.lambda j) (s.temp j)) else s.temp k := by
  have hlower : ∀ c : D, (if c < s.temp (s.pi j) then Function.update s.temp (s.pi j) c
      else s.temp) k = if k = s.pi j then min (s.temp k) c else s.temp k := by
    intro c
    by_cases hk : k = s.pi j
    · subst hk
      rw [if_pos rfl]
      split_ifs with hlt
      · rw [Function.update_self, min_eq_right hlt.le]
      · rw [min_eq_left (not_lt.mp hlt)]
    · rw [if_neg hk]
      split_ifs
      · exact Function.update_of_ne hk ..
      · rfl
  unfold slinkRelax
  by_cases hle : s.temp j ≤ s.lambda j
  · rw [if_pos hle, max_eq_left hle]
    exact hlower _
  · rw [if_neg hle, max_eq_right (not_le.mp hle).le]
    exact hlower _

/-- The level of the point `j` when its turn comes. -/
def touchOf (i : ℕ) (s : Pointers D) (j : ℕ) : D := (rounds (slinkRelax i) j s).temp j

theorem relax_pi_of_le (i : ℕ) (s : Pointers D) (n : ℕ) : ∀ j, n ≤ j →
    (rounds (slinkRelax i) n s).pi j = s.pi j ∧
      (rounds (slinkRelax i) n s).lambda j = s.lambda j := by
  induction n with
  | zero => exact fun j _ => ⟨rfl, rfl⟩
  | succ n ih =>
      intro j hj
      obtain ⟨hpi, hlambda⟩ := ih j (by omega)
      have hne : j ≠ n := by omega
      rw [rounds, slinkRelax_pi, slinkRelax_lambda, if_neg fun h => hne h.1, if_neg hne]
      exact ⟨hpi, hlambda⟩

/-- What the first loop does with a point. -/
theorem relax_of_lt (i : ℕ) (s : Pointers D) (n : ℕ) : ∀ j < n,
    (rounds (slinkRelax i) n s).pi j = (if touchOf i s j ≤ s.lambda j then i else s.pi j) ∧
      (rounds (slinkRelax i) n s).lambda j = min (s.lambda j) (touchOf i s j) := by
  induction n with
  | zero => exact fun j hj => absurd hj (Nat.not_lt_zero j)
  | succ n ih =>
      intro j hj
      rw [rounds, slinkRelax_pi, slinkRelax_lambda]
      by_cases hjn : j = n
      · subst hjn
        obtain ⟨hpi, hlambda⟩ := relax_pi_of_le i s j j le_rfl
        rw [hpi, hlambda]
        exact ⟨if_congr (and_iff_right rfl) rfl rfl, if_pos rfl⟩
      · rw [if_neg fun h => hjn h.1, if_neg hjn]
        exact ih j (by omega)

/-- A round passes the level of a point on to the point of its pointer. -/
theorem relax_temp (i : ℕ) (s : Pointers D) (n k : ℕ) :
    (rounds (slinkRelax i) (n + 1) s).temp k =
      if k = s.pi n then min ((rounds (slinkRelax i) n s).temp k)
        (max (s.lambda n) (touchOf i s n)) else (rounds (slinkRelax i) n s).temp k := by
  obtain ⟨hpi, hlambda⟩ := relax_pi_of_le i s n n le_rfl
  rw [rounds, slinkRelax_temp, hpi, hlambda]
  rfl

theorem relax_temp_anti (i : ℕ) (s : Pointers D) (k : ℕ) :
    Antitone fun n => (rounds (slinkRelax i) n s).temp k := by
  refine antitone_nat_of_succ_le fun n => ?_
  rw [relax_temp]
  split_ifs
  · exact min_le_left _ _
  · exact le_rfl

theorem relax_temp_attained (i : ℕ) (s : Pointers D) (n k : ℕ) :
    (rounds (slinkRelax i) n s).temp k = s.temp k ∨
      ∃ c < n, s.pi c = k ∧
        (rounds (slinkRelax i) n s).temp k = max (s.lambda c) (touchOf i s c) := by
  induction n with
  | zero => exact .inl rfl
  | succ n ih =>
      have hold : ∀ {v : D}, v = (rounds (slinkRelax i) n s).temp k → v = s.temp k ∨
          ∃ c < n + 1, s.pi c = k ∧ v = max (s.lambda c) (touchOf i s c) := by
        rintro v rfl
        exact ih.imp_right fun ⟨c, hc, h⟩ => ⟨c, by omega, h⟩
      rw [relax_temp]
      split_ifs with hk
      · rcases min_choice ((rounds (slinkRelax i) n s).temp k)
          (max (s.lambda n) (touchOf i s n)) with hmin | hmin
        · exact hold hmin
        · exact .inr ⟨n, by omega, hk.symm, hmin⟩
      · exact hold rfl

theorem touch_touchOf (i : ℕ) (s : Pointers D) : Touch s s.temp i (touchOf i s) where
  le_distance j _ := relax_temp_anti i s j (Nat.zero_le j)
  le_pointer j _ hj := by
    have hstep : (rounds (slinkRelax i) (j + 1) s).temp (s.pi j) ≤
        max (s.lambda j) (touchOf i s j) := by
      rw [relax_temp, if_pos rfl]
      exact min_le_right _ _
    exact le_trans (relax_temp_anti i s (s.pi j) hj) hstep
  attained j _ := relax_temp_attained i s j j

/-- What the second loop does. -/
theorem redirect_eq (i : ℕ) (s : Pointers D) (n : ℕ) :
    (rounds (slinkRedirect i) n s).lambda = s.lambda ∧ ∀ j,
      (rounds (slinkRedirect i) n s).pi j =
        if j < n ∧ s.lambda (s.pi j) ≤ s.lambda j then i else s.pi j := by
  induction n with
  | zero => exact ⟨rfl, fun j => by simp [rounds]⟩
  | succ n ih =>
      obtain ⟨hlambda, hpi⟩ := ih
      have hn : (rounds (slinkRedirect i) n s).pi n = s.pi n := by
        rw [hpi, if_neg (by omega)]
      rw [rounds, slinkRedirect, hn, hlambda]
      refine ⟨?_, fun j => ?_⟩
      · split_ifs
        · rfl
        · exact hlambda
      · by_cases hjn : j = n
        · subst hjn
          split_ifs with hle hlt hlt <;> simp_all
        · have hlt : j < n + 1 ↔ j < n := by omega
          split_ifs with hle hj hj <;> simp_all

omit [LinearOrder D] in
/-- A row of distances is stored. -/
theorem rounds_store (row : ℕ → D) (n : ℕ) (temp : ℕ → D) :
    ∀ j, rounds (fun j temp => Function.update temp j (row j)) n temp j =
      if j < n then row j else temp j := by
  induction n with
  | zero => exact fun j => by simp [rounds]
  | succ n ih =>
      intro j
      rw [rounds]
      by_cases hj : j = n
      · simp [hj]
      · have hlt : j < n + 1 ↔ j < n := by omega
        rw [Function.update_of_ne hj, ih]
        exact if_congr hlt.symm rfl rfl

/-! ## The invariant -/

variable {distance touch : ℕ → D} {h : D} {root : ℕ → ℕ}

/-- The roots of the clusters when the point `i` is added: those that it touches get the new
point. -/
def newRoot (i : ℕ) (touch : ℕ → D) (h : D) (root : ℕ → ℕ) (x : ℕ) : ℕ :=
  if x = i ∨ touch (root x) ≤ h then i else root x

theorem newRoot_self (i : ℕ) (touch : ℕ → D) (h : D) (root : ℕ → ℕ) :
    newRoot i touch h root i = i := if_pos (.inl rfl)

theorem newRoot_congr {x y : ℕ} (hx : x ≠ i) (hy : y ≠ i) (heq : root x = root y) :
    newRoot i touch h root x = newRoot i touch h root y := by
  unfold newRoot
  rw [heq]
  simp [hx, hy]

variable [OrderTop D]

/-- The forest after the point `i` was added. -/
structure Added (s : Pointers D) (distance : ℕ → D) (i : ℕ) (touch : ℕ → D) (u : Pointers D) :
    Prop where
  touches : Touch s distance i touch
  lambda : ∀ j < i, u.lambda j = min (s.lambda j) (touch j)
  lambda_self : u.lambda i = ⊤
  pi : ∀ j < i,
    u.pi j = i ∧ (touch j ≤ s.lambda j ∨
        s.lambda j < touch j ∧ u.lambda (s.pi j) ≤ u.lambda j) ∨
      u.pi j = s.pi j ∧ s.lambda j < touch j ∧ u.lambda j < u.lambda (s.pi j)
  pi_self : ∀ j, i ≤ j → u.pi j = s.pi j

theorem slinkAdd_added (distance : ℕ → ℕ → D) (i : ℕ) (s : Pointers D) :
    ∃ touch, Added s (distance i) i touch (slinkAdd distance i s) := by
  -- the arrays before the two loops
  let t : Pointers D :=
    { s with
      lambda := Function.update s.lambda i ⊤
      temp := rounds (fun j temp => Function.update temp j (distance i j)) i s.temp }
  have htemp : ∀ j < i, t.temp j = distance i j := by
    intro j hj
    exact (rounds_store (distance i) i s.temp j).trans (if_pos hj)
  have hlambda : ∀ j < i, t.lambda j = s.lambda j :=
    fun j hj => Function.update_of_ne (Nat.ne_of_lt hj) ..
  have htouch := touch_touchOf i t
  obtain ⟨hredirect, hpi⟩ := redirect_eq i (rounds (slinkRelax i) i t) i
  have hadd : slinkAdd distance i s =
      rounds (slinkRedirect i) i (rounds (slinkRelax i) i t) := rfl
  rw [hadd]
  refine ⟨touchOf i t, ⟨⟨fun j hj => ?_, fun j hj hlt => ?_, fun j hj => ?_⟩, fun j hj => ?_, ?_,
    fun j hj => ?_, fun j hj => ?_⟩⟩
  · exact (htouch.le_distance j hj).trans_eq (htemp j hj)
  · rw [← hlambda j hj]
    exact htouch.le_pointer j hj hlt
  · rcases htouch.attained j hj with heq | ⟨c, hc, hpc, heq⟩
    · exact .inl (heq.trans (htemp j hj))
    · exact .inr ⟨c, hc, hpc, by rw [heq, hlambda c (hc.trans hj)]⟩
  · rw [hredirect, (relax_of_lt i t i j hj).2, hlambda j hj]
  · rw [hredirect, (relax_pi_of_le i t i i le_rfl).2]
    exact Function.update_self ..
  · rw [hpi, hredirect]
    have hrelax := (relax_of_lt i t i j hj).1
    rw [hlambda j hj] at hrelax
    by_cases hle : touchOf i t j ≤ s.lambda j
    · rw [if_pos hle] at hrelax
      rw [hrelax, ite_self]
      exact .inl ⟨rfl, .inl hle⟩
    · rw [if_neg hle] at hrelax
      rw [hrelax]
      split_ifs with hcond
      · exact .inl ⟨rfl, .inr ⟨not_le.mp hle, hcond.2⟩⟩
      · exact .inr ⟨rfl, not_le.mp hle, not_le.mp fun hc => hcond ⟨hj, hc⟩⟩
  · rw [hpi, if_neg fun h => absurd h.1 (not_lt.mpr hj)]
    exact (relax_pi_of_le i t i j hj).1

/-- At the level `h`, every point is led to the point `root` of its cluster. -/
structure Rooted (i : ℕ) (s : Pointers D) (h : D) (root : ℕ → ℕ) : Prop where
  lt : ∀ j < i, root j < i
  pointer : ∀ j, j + 1 < i → s.lambda j ≤ h → root j = root (s.pi j)
  stop : ∀ j < i, j + 1 = i ∨ h < s.lambda j → root j = j

/-- The state of the loop when `i` points were added. -/
structure Linkage (near : D → ℕ → ℕ → Prop) (i : ℕ) (s : Pointers D) : Prop where
  up : ∀ j, j + 1 < i → j < s.pi j ∧ s.pi j < i ∧ s.lambda j < s.lambda (s.pi j)
  last : ∀ j, j + 1 = i → s.lambda j = ⊤
  self : ∀ j, i ≤ j + 1 → s.pi j = j
  rooted : ∀ h, ∃ root, Rooted i s h root ∧
    ∀ x < i, ∀ y < i, (root x = root y ↔ Density.Linked (near h) (· < i) x y)

variable {near : D → ℕ → ℕ → Prop}

/-- Along the pointers at or below a level, a fact about the last points goes down. -/
theorem Linkage.induction (hlink : Linkage near i s) (h : D) {P : ℕ → Prop}
    (hstop : ∀ j < i, j + 1 = i ∨ h < s.lambda j → P j)
    (hpointer : ∀ j, j + 1 < i → s.lambda j ≤ h → P (s.pi j) → P j) {j : ℕ} (hj : j < i) :
    P j := by
  induction hd : i - j using Nat.strong_induction_on generalizing j with
  | _ d ih =>
      by_cases hlast : j + 1 = i ∨ h < s.lambda j
      · exact hstop j hj hlast
      · rw [not_or, not_lt] at hlast
        have hlt : j + 1 < i := by omega
        obtain ⟨hup, hpi, -⟩ := hlink.up j hlt
        exact hpointer j hlt hlast.2 (ih (i - s.pi j) (by omega) hpi rfl)

theorem Rooted.root_root (hlink : Linkage near i s) (hroot : Rooted i s h root) {j : ℕ}
    (hj : j < i) : root (root j) = root j := by
  refine hlink.induction h (P := fun j => root (root j) = root j) (fun j hj hstop => ?_)
    (fun j hlt hle ih => ?_) hj
  · rw [hroot.stop j hj hstop, hroot.stop j hj hstop]
  · rw [hroot.pointer j hlt hle]
    exact ih

/-- What touches the new point below the level `h` does so from the root of its cluster. -/
theorem Touch.root_le (hlink : Linkage near i s) (ht : Touch s distance i touch)
    (hroot : Rooted i s h root) {j : ℕ} (hj : j < i) (hle : touch j ≤ h) :
    touch (root j) ≤ h := by
  refine hlink.induction h (P := fun j => touch j ≤ h → touch (root j) ≤ h) ?_ ?_ hj hle
  · intro j hj hstop hle
    rwa [hroot.stop j hj hstop]
  · intro j hlt hlambda ih hle
    obtain ⟨hup, -, -⟩ := hlink.up j hlt
    rw [hroot.pointer j hlt hlambda]
    exact ih ((ht.le_pointer j (by omega) hup).trans (max_le hlambda hle))

omit [OrderTop D] in
/-- A cluster touches the new point from one of its points. -/
theorem Touch.exists_distance_le (ht : Touch s distance i touch)
    (hroot : Rooted i s h root) {j : ℕ} (hj : j < i) (hle : touch j ≤ h) :
    ∃ x < i, root x = root j ∧ distance x ≤ h := by
  induction j using Nat.strong_induction_on with
  | _ j ih =>
      rcases ht.attained j hj with heq | ⟨c, hc, hpc, heq⟩
      · exact ⟨j, hj, rfl, heq ▸ hle⟩
      · have hmax : max (s.lambda c) (touch c) ≤ h := heq ▸ hle
        obtain ⟨hlambda, htouch⟩ := max_le_iff.mp hmax
        obtain ⟨x, hx, hxc, hxd⟩ := ih c hc (hc.trans hj) htouch
        refine ⟨x, hx, ?_, hxd⟩
        rw [hxc, hroot.pointer c (by omega) hlambda, hpc]

/-- The new pointers lead to the new roots. -/
theorem Rooted.add (hlink : Linkage near i s) (hadd : Added s distance i touch u)
    (hroot : Rooted i s h root) : Rooted (i + 1) u h (newRoot i touch h root) := by
  have htouched : ∀ j < i, touch j ≤ h → newRoot i touch h root j = i :=
    fun j hj hle => if_pos (.inr (hadd.touches.root_le hlink hroot hj hle))
  refine ⟨fun x hx => ?_, fun j hj hle => ?_, fun j hj hstop => ?_⟩
  · unfold newRoot
    split_ifs with hc
    · omega
    · have := hroot.lt x (by omega)
      omega
  · have hji : j < i := by omega
    rw [hadd.lambda j hji] at hle
    rcases hadd.pi j hji with ⟨hpi, hless⟩ | ⟨hpi, hlt, -⟩
    · rw [hpi, newRoot_self]
      rcases hless with htouch | ⟨hlt, hlambda⟩
      · rw [min_eq_right htouch] at hle
        exact htouched j hji hle
      · -- the pointer led to a point that touches the new one at a lower level
        rw [min_eq_left hlt.le] at hle
        by_cases hlast : j + 1 = i
        · exact absurd hlt (by simp [hlink.last j hlast])
        · obtain ⟨-, hpi, hup⟩ := hlink.up j (by omega)
          rw [hadd.lambda j hji, min_eq_left hlt.le, hadd.lambda _ hpi] at hlambda
          have htouch : touch (s.pi j) ≤ s.lambda j := by
            rcases min_le_iff.mp hlambda with hlow | hlow
            · exact absurd hlow (not_le_of_gt hup)
            · exact hlow
          have hroots := hroot.pointer j (by omega) hle
          rw [newRoot_congr (Nat.ne_of_lt hji) (Nat.ne_of_lt hpi) hroots]
          exact htouched _ hpi (htouch.trans hle)
    · rw [min_eq_left hlt.le] at hle
      rw [hpi]
      by_cases hlast : j + 1 = i
      · exact absurd hlt (by simp [hlink.last j hlast])
      · obtain ⟨-, hpi, -⟩ := hlink.up j (by omega)
        exact newRoot_congr (Nat.ne_of_lt hji) (Nat.ne_of_lt hpi) (hroot.pointer j (by omega) hle)
  · by_cases hji : j = i
    · rw [hji, newRoot_self]
    · have hj : j < i := by omega
      have hlt : h < u.lambda j := hstop.resolve_left (by omega)
      rw [hadd.lambda j hj, lt_min_iff] at hlt
      have hself := hroot.stop j hj (.inr hlt.1)
      unfold newRoot
      rw [hself, if_neg]
      rintro (heq | hle)
      · exact hji heq
      · exact absurd hlt.2 (not_lt_of_ge hle)

/-- The new roots are those of the clusters with the new point. -/
theorem newRoot_eq_iff (hlink : Linkage near i s) (ht : Touch s distance i touch)
    (hsymm : ∀ a b, near h a b → near h b a) (hnear : ∀ j < i, near h i j ↔ distance j ≤ h)
    (hroot : Rooted i s h root)
    (hclusters : ∀ x < i, ∀ y < i,
      (root x = root y ↔ Density.Linked (near h) (· < i) x y)) :
    ∀ x < i + 1, ∀ y < i + 1, (newRoot i touch h root x = newRoot i touch h root y ↔
      Density.Linked (near h) (· < i + 1) x y) := by
  have hold : ∀ x < i, ∀ y < i, root x = root y → Density.Linked (near h) (· < i + 1) x y :=
    fun x hx y hy heq => ((hclusters x hx y hy).mp heq).mono fun a ha => Nat.lt_succ_of_lt ha
  -- a point whose root is the new point is linked to it
  have hnew : ∀ x < i + 1, newRoot i touch h root x = i →
      Density.Linked (near h) (· < i + 1) x i := by
    intro x hx heq
    by_cases hxi : x = i
    · rw [hxi]
      exact .refl i
    · have hx : x < i := by omega
      have hle : touch (root x) ≤ h := by
        by_contra hgt
        have hneg : ¬(x = i ∨ touch (root x) ≤ h) := fun hc => hc.elim hxi hgt
        rw [newRoot, if_neg hneg] at heq
        exact absurd (hroot.lt x hx) (by omega)
      obtain ⟨z, hz, hzx, hzd⟩ := ht.exists_distance_le hroot (hroot.lt x hx) hle
      have hzx := hzx.trans (hroot.root_root hlink hx)
      have hlinked := hold x hx z hz hzx.symm
      exact hlinked.tail (hsymm _ _ ((hnear z hz).mpr hzd)) (Nat.lt_succ_self i)
  have hkeep : ∀ x, newRoot i touch h root x ≠ i →
      x ≠ i ∧ newRoot i touch h root x = root x := by
    intro x hx
    unfold newRoot at hx ⊢
    split_ifs at hx ⊢ with hc
    · exact absurd rfl hx
    · exact ⟨fun hxi => hc (.inl hxi), rfl⟩
  have hstep : ∀ a < i, distance a ≤ h → newRoot i touch h root a = i := by
    intro a ha hle
    exact if_pos (.inr (ht.root_le hlink hroot ha ((ht.le_distance a ha).trans hle)))
  intro x hx y hy
  constructor
  · intro heq
    by_cases hxi : newRoot i touch h root x = i
    · have hyi := heq.symm.trans hxi
      exact (hnew x hx hxi).trans ((hnew y hy hyi).symm hsymm hy)
    · obtain ⟨hx', hxr⟩ := hkeep x hxi
      obtain ⟨hy', hyr⟩ := hkeep y (heq ▸ hxi)
      exact hold x (by omega) y (by omega) (by rw [← hxr, ← hyr, heq])
  · intro hlinked
    induction hlinked with
    | refl => rfl
    | @tail a b hab hstepab ih =>
        have hlinked : Density.Linked (near h) (· < i + 1) x a := hab
        have ha := hlinked.core_right hx
        have hb : b < i + 1 := hstepab.2
        rw [ih ha]
        by_cases hai : a = i <;> by_cases hbi : b = i
        · rw [hai, hbi]
        · have hle := (hnear b (by omega)).mp (hai ▸ hstepab.1)
          rw [hai, newRoot_self, hstep b (by omega) hle]
        · have hle := (hnear a (by omega)).mp (hsymm _ _ (hbi ▸ hstepab.1))
          rw [hbi, newRoot_self, hstep a (by omega) hle]
        · refine newRoot_congr hai hbi ((hclusters a (by omega) b (by omega)).mpr ?_)
          exact (Density.Linked.refl a).tail hstepab.1 (by omega)

/-- **One more point keeps the invariant.** -/
theorem Linkage.add (hlink : Linkage near i s) (hadd : Added s distance i touch u)
    (hfinite : ∀ j < i, distance j < ⊤) (hsymm : ∀ h a b, near h a b → near h b a)
    (hnear : ∀ h, ∀ j < i, near h i j ↔ distance j ≤ h) : Linkage near (i + 1) u := by
  refine ⟨fun j hj => ?_, fun j hj => ?_, fun j hj => ?_, fun h => ?_⟩
  · have hji : j < i := by omega
    rcases hadd.pi j hji with ⟨hpi, -⟩ | ⟨hpi, hlt, hup⟩
    · rw [hpi, hadd.lambda_self, hadd.lambda j hji]
      refine ⟨hji, Nat.lt_succ_self i, min_lt_of_right_lt ?_⟩
      exact (hadd.touches.le_distance j hji).trans_lt (hfinite j hji)
    · rw [hpi]
      by_cases hlast : j + 1 = i
      · exact absurd hlt (by simp [hlink.last j hlast])
      · obtain ⟨hjp, hpj, -⟩ := hlink.up j (by omega)
        exact ⟨hjp, by omega, hup⟩
  · obtain rfl : j = i := by omega
    exact hadd.lambda_self
  · rw [hadd.pi_self j (by omega)]
    exact hlink.self j (by omega)
  · obtain ⟨root, hroot, hclusters⟩ := hlink.rooted h
    exact ⟨newRoot i touch h root, hroot.add hlink hadd,
      newRoot_eq_iff hlink hadd.touches (hsymm h) (hnear h) hroot hclusters⟩

/-- **The loop over the points.** -/
theorem slinkPointers_linkage (distance : ℕ → ℕ → D) (nrows : ℕ)
    (hfinite : ∀ i < nrows, ∀ j < i, distance i j < ⊤)
    (hsymm : ∀ h a b, near h a b → near h b a)
    (hnear : ∀ h, ∀ i < nrows, ∀ j < i, (near h i j ↔ distance i j ≤ h)) :
    Linkage near nrows (slinkPointers distance nrows) := by
  unfold slinkPointers
  induction nrows with
  | zero =>
      refine ⟨fun j hj => by omega, fun j hj => by omega, fun j _ => rfl, fun h => ?_⟩
      exact ⟨fun x => x, ⟨fun j hj => by omega, fun j hj => by omega, fun j hj => by omega⟩,
        fun x hx => by omega⟩
  | succ n ih =>
      have ih := ih (fun i hi => hfinite i (by omega)) fun h i hi => hnear h i (by omega)
      obtain ⟨touch, hadd⟩ := slinkAdd_added distance n
        (rounds (slinkAdd distance) n ⟨fun i => i, fun _ => ⊤, fun _ => ⊤⟩)
      exact ih.add hadd (hfinite n (Nat.lt_succ_self n)) hsymm fun h j hj =>
        hnear h n (Nat.lt_succ_self n) j hj

end Lush.Mapper
