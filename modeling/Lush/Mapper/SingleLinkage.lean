import Lush.Mapper.Slink

/-!
# Single linkage is exact

The pointers of `mapper_slink`, sorted by their levels, are joins of clusters, since the level
of a point is below that of its pointer.  Cut at a threshold, they are the clusters of the
points that a chain of distances up to the threshold connects (`mapperSlink_exact`).
-/

namespace Lush.Mapper

open Density Merging

variable {D : Type} [LinearOrder D] [OrderTop D] {near : D → ℕ → ℕ → Prop} {s : Pointers D}
  {n : ℕ}

/-! ## Sorted pointers -/

/-- Some nodes of the pointers, those with the largest levels first. -/
structure Nodes (n : ℕ) (s : Pointers D) (nodes : List (ℕ × D)) : Prop where
  node : ∀ p ∈ nodes, p.1 + 1 < n ∧ p.2 = s.lambda p.1
  nodup : (nodes.map Prod.fst).Nodup
  sorted : nodes.Pairwise fun a b => b.2 ≤ a.2

omit [OrderTop D] in
theorem Nodes.tail {node : ℕ × D} {nodes : List (ℕ × D)} (h : Nodes n s (node :: nodes)) :
    Nodes n s nodes where
  node p hp := h.node p (List.mem_cons_of_mem _ hp)
  nodup := (List.nodup_cons.mp h.nodup).2
  sorted := (List.pairwise_cons.mp h.sorted).2

/-- Every pointer leads to a point that was not joined before. -/
theorem Nodes.joinable {nodes : List (ℕ × D)} (hlink : Linkage near n s) (h : Nodes n s nodes) :
    Joinable (joins s.pi nodes) := by
  induction nodes with
  | nil => trivial
  | cons node nodes ih =>
      obtain ⟨hlt, hlevel⟩ := h.node node List.mem_cons_self
      obtain ⟨hup, -, hpointer⟩ := hlink.up node.1 hlt
      have hfresh := (List.nodup_cons.mp h.nodup).1
      have hsorted := (List.pairwise_cons.mp h.sorted).1
      refine ⟨Nat.ne_of_lt hup, fun p hp heq => ?_, fun p hp heq => ?_, ih h.tail⟩
      · obtain ⟨q, hq, rfl⟩ := List.mem_map.mp hp
        exact hfresh (List.mem_map.mpr ⟨q, hq, heq⟩)
      · -- a point that was joined before has a level that is not above
        obtain ⟨q, hq, rfl⟩ := List.mem_map.mp hp
        have hq1 : q.1 = s.pi node.1 := heq
        have hle := hsorted q hq
        rw [(h.node q (List.mem_cons_of_mem _ hq)).2, hlevel, hq1] at hle
        exact absurd hpointer (not_lt_of_ge hle)

theorem Nodes.lt {nodes : List (ℕ × D)} (hlink : Linkage near n s) (h : Nodes n s nodes) :
    ∀ p ∈ joins s.pi nodes, p.1 < n ∧ p.2 < n := by
  intro p hp
  obtain ⟨q, hq, rfl⟩ := List.mem_map.mp hp
  have hlt := (h.node q hq).1
  exact ⟨Nat.lt_of_succ_lt hlt, (hlink.up q.1 hlt).2.1⟩

/-- When all pointers are there, no point is left alone. -/
theorem Nodes.not_single {nodes : List (ℕ × D)} (hn : 2 ≤ n) (hlink : Linkage near n s)
    (h : Nodes n s nodes) (hall : ∀ j, j + 1 < n → ∃ p ∈ nodes, p.1 = j) :
    ∀ x < n, ¬Single (joins s.pi nodes) x := by
  have hroot : ∀ x < n, Root (joins s.pi nodes) x → x + 1 = n := by
    intro x hx hr
    by_contra hne
    obtain ⟨p, hp, hpx⟩ := hall x (by omega)
    exact hr (p.1, s.pi p.1) (List.mem_map.mpr ⟨p, hp, rfl⟩) hpx
  rintro x hx ⟨hr, hname⟩
  cases nodes with
  | nil =>
      obtain ⟨p, hp, -⟩ := hall 0 (by omega)
      exact absurd hp List.not_mem_nil
  | cons node nodes =>
      have hjoin : Joinable ((node.1, s.pi node.1) :: joins s.pi nodes) := h.joinable hlink
      have hlast := hroot (s.pi node.1) (h.lt hlink _ List.mem_cons_self).2
        (root_cons.mpr ⟨hjoin.1, hjoin.2.2.1⟩)
      have hx := hroot x hx hr
      obtain rfl : x = s.pi node.1 := by omega
      have hneg : name (joins s.pi (node :: nodes)) (s.pi node.1) =
          -(((joins s.pi nodes).length : ℤ) + 1) := name_cons_self
      omega

/-- The joins at or below a level are the clusters at that level. -/
theorem Nodes.rep_eq_root {nodes : List (ℕ × D)} {h : D} {root : ℕ → ℕ}
    (hlink : Linkage near n s) (hnodes : Nodes n s nodes) (hroot : Rooted n s h root)
    (hbelow : ∀ p ∈ nodes, p.2 ≤ h)
    (hall : ∀ j, j + 1 < n → s.lambda j ≤ h → ∃ p ∈ nodes, p.1 = j) {x : ℕ} (hx : x < n) :
    rep (joins s.pi nodes) x = root x := by
  refine hlink.induction h (P := fun x => rep (joins s.pi nodes) x = root x)
    (fun j hj hstop => ?_) (fun j hlt hle ih => ?_) hx
  · rw [hroot.stop j hj hstop]
    refine rep_root fun p hp hpj => ?_
    obtain ⟨q, hq, rfl⟩ := List.mem_map.mp hp
    obtain rfl : q.1 = j := hpj
    obtain ⟨hlt, hlevel⟩ := hnodes.node q hq
    rcases hstop with hlast | hgt
    · omega
    · exact absurd (hbelow q hq) (not_le_of_gt (hlevel ▸ hgt))
  · obtain ⟨p, hp, rfl⟩ := hall j hlt hle
    rw [hroot.pointer _ hlt hle, ← ih]
    exact rep_join (hnodes.joinable hlink) (List.mem_map.mpr ⟨p, hp, rfl⟩)

/-! ## The cut at a threshold -/

variable {pi : ℕ → ℕ}

omit [LinearOrder D] [OrderTop D] in
theorem map_dist_replay (nodes : List (ℕ × D)) (i : ℕ) (idx : ℕ → ℤ) :
    (replay pi nodes i idx).map Merge.dist = nodes.map Prod.snd := by
  induction nodes generalizing i idx with
  | nil => rfl
  | cons node nodes ih => rw [replay, List.map_cons, List.map_cons, ih]

omit [OrderTop D] in
/-- The merges that are counted are those at or below the threshold. -/
theorem countBelow_spec (threshold : D) {nodes : List (ℕ × D)} (i : ℕ) (idx : ℕ → ℤ)
    (hsorted : nodes.Pairwise fun a b => a.2 ≤ b.2) :
    countBelow threshold (replay pi nodes i idx) ≤ nodes.length ∧
      (∀ p ∈ nodes.take (countBelow threshold (replay pi nodes i idx)), p.2 ≤ threshold) ∧
      ∀ p ∈ nodes.drop (countBelow threshold (replay pi nodes i idx)), threshold < p.2 := by
  induction nodes generalizing i idx with
  | nil => exact ⟨Nat.le_refl 0, fun p hp => absurd hp (by simp), fun p hp => absurd hp (by simp)⟩
  | cons node nodes ih =>
      obtain ⟨hfirst, hrest⟩ := List.pairwise_cons.mp hsorted
      obtain ⟨hlen, htake, hdrop⟩ := ih (i + 1)
        (Function.update idx (pi node.1) (-((i : ℤ) + 1))) hrest
      rw [replay, countBelow]
      split_ifs with hle
      · refine ⟨Nat.succ_le_succ hlen, fun p hp => ?_, hdrop⟩
        rw [List.take_succ_cons] at hp
        rcases List.mem_cons.mp hp with rfl | hp
        · exact hle
        · exact htake p hp
      · refine ⟨Nat.zero_le _, fun p hp => absurd hp (by simp), fun p hp => ?_⟩
        rcases List.mem_cons.mp hp with rfl | hp
        · exact not_le.mp hle
        · exact (not_le.mp hle).trans_le (hfirst p hp)

/-! ## The distances of the data -/

theorem dmIdx_succ (i : ℕ) : dmIdx (i + 1) 0 = dmIdx i 0 + i := by
  have hsq : (i + 1) * i = i * (i - 1) + i * 2 := by
    cases i with
    | zero => rfl
    | succ i =>
        simp only [Nat.add_sub_cancel]
        ring
  simp only [dmIdx, Nat.add_zero, Nat.add_sub_cancel, hsq]
  exact Nat.add_mul_div_right _ _ (by decide)

theorem dmIdx_mono {i k : ℕ} (h : i ≤ k) : dmIdx i 0 ≤ dmIdx k 0 := by
  induction h with
  | refl => exact Nat.le_refl _
  | step _ ih =>
      rw [dmIdx_succ]
      omega

theorem dmIdx_eq_add (i j : ℕ) : dmIdx i j = dmIdx i 0 + j := rfl

omit [LinearOrder D] [OrderTop D] in
/-- A row of the matrix is stored. -/
theorem row_store (metric : ℕ → D) (i n : ℕ) (dm : ℕ → D) :
    (∀ j < n, rounds (fun j dm => Function.update dm (dmIdx i j) (metric j)) n dm (dmIdx i j) =
      metric j) ∧
    ∀ k < dmIdx i 0, rounds (fun j dm => Function.update dm (dmIdx i j) (metric j)) n dm k =
      dm k := by
  induction n with
  | zero => exact ⟨fun j hj => absurd hj (Nat.not_lt_zero j), fun k _ => rfl⟩
  | succ n ih =>
      refine ⟨fun j hj => ?_, fun k hk => ?_⟩
      · rw [rounds]
        by_cases hjn : j = n
        · rw [hjn, Function.update_self]
        · have hne : dmIdx i j ≠ dmIdx i n := by
            rw [dmIdx_eq_add i j, dmIdx_eq_add i n]
            omega
          rw [Function.update_of_ne hne]
          exact ih.1 j (by omega)
      · have hne : k ≠ dmIdx i n := by
          rw [dmIdx_eq_add i n]
          omega
        rw [rounds, Function.update_of_ne hne]
        exact ih.2 k hk

omit [LinearOrder D] [OrderTop D] in
/-- The matrix holds the distances of the data. -/
theorem mapperDistanceMatrix_get (metric : ℕ → ℕ → D) (n : ℕ) (dm : ℕ → D) :
    ∀ i < n, ∀ j < i, mapperDistanceMatrix metric n dm (dmIdx i j) = metric i j := by
  induction n with
  | zero => exact fun i hi => absurd hi (Nat.not_lt_zero i)
  | succ n ih =>
      intro i hi j hj
      obtain ⟨hrow, hbefore⟩ := row_store (metric n) n n (mapperDistanceMatrix metric n dm)
      by_cases hin : i = n
      · subst hin
        exact hrow j hj
      · -- the rows before are not written to
        have hlt : dmIdx i j < dmIdx n 0 := by
          have hmono := dmIdx_mono (show i + 1 ≤ n by omega)
          rw [dmIdx_succ] at hmono
          rw [dmIdx_eq_add]
          omega
        exact (hbefore _ hlt).trans (ih i (by omega) j hj)

/-- The loop reads the distances of earlier points only. -/
theorem slinkPointers_congr {distance distance' : ℕ → ℕ → D}
    (h : ∀ i < n, ∀ j < i, distance i j = distance' i j) :
    slinkPointers distance n = slinkPointers distance' n := by
  unfold slinkPointers
  induction n with
  | zero => rfl
  | succ n ih =>
      rw [rounds, rounds, ih fun i hi => h i (by omega), slinkAdd, slinkAdd]
      congr 2
      funext j
      rw [rounds_store, rounds_store]
      split_ifs with hj
      · exact h n (by omega) j hj
      · rfl

/-! ## The result -/

variable {qsort : List (ℕ × D) → List (ℕ × D)} {dm : ℕ → D} {nrows : ℕ}

omit [OrderTop D] in
/-- The sorted nodes, with the last one first. -/
theorem nodes_qsort (hperm : ∀ l, (qsort l).Perm l)
    (hsorted : ∀ l, (qsort l).Pairwise fun a b => a.2 ≤ b.2) :
    Nodes n s (qsort ((List.range (n - 1)).map fun i => (i, s.lambda i))).reverse := by
  have hp := hperm ((List.range (n - 1)).map fun i => (i, s.lambda i))
  refine ⟨fun p hmem => ?_, ?_, ?_⟩
  · obtain ⟨i, hi, rfl⟩ := List.mem_map.mp (hp.mem_iff.mp (List.mem_reverse.mp hmem))
    have hi := List.mem_range.mp hi
    exact ⟨by omega, rfl⟩
  · rw [List.map_reverse, List.nodup_reverse, (hp.map Prod.fst).nodup_iff, List.map_map]
    exact List.Nodup.map (fun a b h => h) List.nodup_range
  · rw [List.pairwise_reverse]
    exact hsorted _

/-- The cut of a linkage at a threshold numbers its clusters. -/
theorem Linkage.cut (hn : 2 ≤ n) (hlink : Linkage near n s) (hperm : ∀ l, (qsort l).Perm l)
    (hsorted : ∀ l, (qsort l).Pairwise fun a b => a.2 ≤ b.2) (threshold : D) (labels : ℕ → ℤ) :
    Numbers n (mapperCutTreeDist n (slinkPostprocess qsort n s.pi s.lambda) threshold labels).1
      (fun x y => Linked (near threshold) (· < n) x y)
      (mapperCutTreeDist n (slinkPostprocess qsort n s.pi s.lambda) threshold labels).2 := by
  let nodes := qsort ((List.range (n - 1)).map fun i => (i, s.lambda i))
  let below := countBelow threshold (replay s.pi nodes 0 fun i => i)
  have hp := hperm ((List.range (n - 1)).map fun i => (i, s.lambda i))
  have hnodes : Nodes n s nodes.reverse := nodes_qsort hperm hsorted
  have hlength : nodes.length = n - 1 := by
    rw [hp.length_eq, List.length_map, List.length_range]
  have hall : ∀ j, j + 1 < n → (j, s.lambda j) ∈ nodes := by
    intro j hj
    exact hp.mem_iff.mpr (List.mem_map.mpr ⟨j, List.mem_range.mpr (by omega), rfl⟩)
  obtain ⟨hlen, htake, hdrop⟩ : below ≤ nodes.length ∧
      (∀ p ∈ nodes.take below, p.2 ≤ threshold) ∧ ∀ p ∈ nodes.drop below, threshold < p.2 :=
    countBelow_spec threshold 0 (fun i => (i : ℤ)) (hsorted _)
  have hnumbers : Numbers n (n - below)
      (fun x y => rep (joins s.pi (nodes.take below).reverse) x =
        rep (joins s.pi (nodes.take below).reverse) y)
      (mapperCutTree n (replay s.pi nodes 0 fun i => i) (n - below) labels) := by
    refine mapperCutTree_numbers hlen (hlength.trans_le (Nat.sub_le n 1)) (hnodes.joinable hlink) (hnodes.lt hlink)
      (hnodes.not_single hn hlink fun j hj => ?_) labels
    exact ⟨_, List.mem_reverse.mpr (hall j hj), rfl⟩
  -- the joins below the cut are the clusters at the threshold
  obtain ⟨root, hroot, hclusters⟩ := hlink.rooted threshold
  have hkept : Nodes n s (nodes.take below).reverse := by
    have hsub : (nodes.take below).reverse.Sublist nodes.reverse :=
      (List.take_sublist below nodes).reverse
    exact ⟨fun p hmem => hnodes.node p (hsub.subset hmem), hnodes.nodup.sublist (hsub.map _),
      hnodes.sorted.sublist hsub⟩
  have hrep : ∀ x < n, rep (joins s.pi (nodes.take below).reverse) x = root x := by
    intro x hx
    refine hkept.rep_eq_root hlink hroot (fun p hmem => htake p (List.mem_reverse.mp hmem))
      (fun j hj hle => ?_) hx
    refine ⟨(j, s.lambda j), List.mem_reverse.mpr ?_, rfl⟩
    have hmem := hall j hj
    rw [← List.take_append_drop below nodes, List.mem_append] at hmem
    exact hmem.resolve_right fun hd => absurd hle (not_le_of_gt (hdrop _ hd))
  refine ⟨hnumbers.range, fun x hx y hy => ?_, hnumbers.used⟩
  rw [← hclusters x hx y hy, ← hrep x hx, ← hrep y hy]
  exact hnumbers.same x hx y hy

/-- **Single linkage is exact.**  There is a merge for every point but one, in the order of
their distances, and at every threshold the labels number the clusters of the points that a
chain of distances up to the threshold connects.  On data the merges are the same as on the
matrix of its distances. -/
theorem mapperSlink_exact [Zero D] (hn : 2 ≤ nrows)
    (hfinite : ∀ i < nrows, ∀ j < i, dm (dmIdx i j) < ⊤) (hperm : ∀ l, (qsort l).Perm l)
    (hsorted : ∀ l, (qsort l).Pairwise fun a b => a.2 ≤ b.2) :
    (mapperSlink qsort dm nrows).length = nrows - 1 ∧
    (mapperSlink qsort dm nrows).Pairwise (fun a b => a.dist ≤ b.dist) ∧
    (∀ threshold labels, Numbers nrows
      (mapperCutTreeDist nrows (mapperSlink qsort dm nrows) threshold labels).1
      (fun x y => Linked (Near dm threshold) (· < nrows) x y)
      (mapperCutTreeDist nrows (mapperSlink qsort dm nrows) threshold labels).2) ∧
    ∀ metric matrix, mapperSlinkData qsort metric nrows =
      mapperSlink qsort (mapperDistanceMatrix metric nrows matrix) nrows := by
  have hnear : ∀ h, ∀ i < nrows, ∀ j < i, (Near dm h i j ↔ dm (dmIdx i j) ≤ h) := by
    intro h i _ j hj
    rw [Near, dmGet, if_neg (Nat.ne_of_gt hj), if_neg (by omega)]
  have hlink : Linkage (Near dm) nrows (slinkPointers (fun i j => dm (dmIdx i j)) nrows) :=
    slinkPointers_linkage _ nrows hfinite (fun _ _ _ => Near.symm _ _) hnear
  have hdist : (mapperSlink qsort dm nrows).map Merge.dist = _ := map_dist_replay _ 0 _
  refine ⟨?_, ?_, fun threshold labels => hlink.cut hn hperm hsorted threshold labels,
    fun metric matrix => ?_⟩
  · calc (mapperSlink qsort dm nrows).length
        = ((mapperSlink qsort dm nrows).map Merge.dist).length := (List.length_map ..).symm
      _ = nrows - 1 := by
        rw [hdist, List.length_map, (hperm _).length_eq, List.length_map, List.length_range]
  · rw [← List.pairwise_map (f := Merge.dist) (R := fun a b => a ≤ b), hdist, List.pairwise_map]
    exact hsorted _
  · have hdata : slinkPointers metric nrows =
        slinkPointers (fun i j => mapperDistanceMatrix metric nrows matrix (dmIdx i j)) nrows := by
      refine slinkPointers_congr fun i hi j hj => ?_
      exact (mapperDistanceMatrix_get metric nrows matrix i hi j hj).symm
    rw [mapperSlinkData, mapperSlink, hdata]

/-- The distances of three points on a line, at the places 0, 1 and 3. -/
def threeDistances (k : ℕ) : ℕ∞ := ([1, 3, 2] : List ℕ).getD k 0

/-- A sort of nodes. -/
def sortNodes (nodes : List (ℕ × D)) : List (ℕ × D) := nodes.insertionSort fun a b => a.2 ≤ b.2

omit [OrderTop D] in
theorem sortNodes_perm (nodes : List (ℕ × D)) : (sortNodes nodes).Perm nodes :=
  List.perm_insertionSort _ nodes

omit [OrderTop D] in
theorem sortNodes_pairwise (nodes : List (ℕ × D)) :
    (sortNodes nodes).Pairwise fun a b => a.2 ≤ b.2 :=
  haveI : Std.Total fun a b : ℕ × D => a.2 ≤ b.2 := ⟨fun a b => le_total a.2 b.2⟩
  haveI : IsTrans (ℕ × D) fun a b => a.2 ≤ b.2 := ⟨fun _ _ _ => le_trans⟩
  List.pairwise_insertionSort _ nodes

theorem mapperSlink_three_exact :
    (mapperSlink sortNodes threeDistances 3).length = 3 - 1 ∧
    (mapperSlink sortNodes threeDistances 3).Pairwise (fun a b => a.dist ≤ b.dist) ∧
    (∀ threshold labels, Numbers 3
      (mapperCutTreeDist 3 (mapperSlink sortNodes threeDistances 3) threshold labels).1
      (fun x y => Linked (Near threeDistances threshold) (· < 3) x y)
      (mapperCutTreeDist 3 (mapperSlink sortNodes threeDistances 3) threshold labels).2) ∧
    ∀ (metric : ℕ → ℕ → ℕ∞) (matrix : ℕ → ℕ∞), mapperSlinkData sortNodes metric 3 =
      mapperSlink sortNodes (mapperDistanceMatrix metric 3 matrix) 3 :=
  mapperSlink_exact (by decide) (fun _ _ _ _ => WithTop.coe_lt_top _)
    sortNodes_perm sortNodes_pairwise

end Lush.Mapper
