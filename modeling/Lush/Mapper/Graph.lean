import Lush.Mapper.Cover
import Lush.Mapper.Nerve

/-!
# The Mapper graph

The function `mapper-run` of `mapper.lsh` with the clusterer `slink`, in exact arithmetic: the
points of every hypercube of the cover are clustered, and the nerve of the clusters is built.
The rows of the data are compared by a metric, which reads two rows.
-/

namespace Lush.Mapper

open Density Merging

variable {K : Type} [LinearOrder K]

/-- The nodes of the labels below `nc`, as indices of points. -/
def labelNodes (labels : ℕ → ℤ) (nc : ℕ) (hc : List ℕ) : List (List ℕ) :=
  ((List.range nc).map fun c : ℕ =>
    ((List.range hc.length).filter fun i => labels i = c).map fun i => hc.getD i 0).filter
      fun node => node ≠ []

/-- The nodes of a hypercube: its rows are selected, clustered and cut at `eps`.  No distance
is above `DBL_MAX`. -/
def clusterBin (qsort : List (ℕ × WithTop K) → List (ℕ × WithTop K))
    (metric : (ℕ → K) → (ℕ → K) → K) (data : ℕ → ℕ → K) (eps : K) (hc : List ℕ) :
    List (List ℕ) :=
  let binData := fun i => data (hc.getD i 0)
  let tree := mapperSlinkData qsort (fun i j => (metric (binData i) (binData j) : WithTop K))
    hc.length
  let cut := mapperCutTreeDist hc.length tree (eps : WithTop K) fun _ => 0
  labelNodes cut.2 cut.1 hc

/-- `mapper-run` with the clusterer `slink`. -/
def mapperRun [Field K] (qsort : List (ℕ × WithTop K) → List (ℕ × WithTop K))
    (metric : (ℕ → K) → (ℕ → K) → K) (n ndims : ℕ) (data lens : ℕ → ℕ → K) (nCubes : ℕ)
    (overlap eps : K) (minIntersection : ℕ) : MapperGraph :=
  let cover := mapperCoverFit n ndims lens (fun _ => nCubes) fun _ => overlap
  let hypercubes := mapperCoverTransform n ndims lens cover
  let allNodes := hypercubes.zipIdx.flatMap fun bin =>
    if 2 ≤ bin.1.length then
      (clusterBin qsort metric data eps bin.1).map fun node => (node, bin.2)
    else []
  mapperBuildNerve (allNodes.map Prod.fst) (allNodes.map Prod.snd) minIntersection

/-! ## The clusters of a hypercube -/

/-- The nodes are the single-linkage clusters of some points, each in ascending order. -/
structure Clusters (near : ℕ → ℕ → Prop) (points : List ℕ) (nodes : List (List ℕ)) : Prop where
  ascending : ∀ node ∈ nodes, node.Pairwise (· < ·)
  nonempty : ∀ node ∈ nodes, node ≠ []
  nodup : nodes.Nodup
  cover : ∀ x ∈ points, ∃ node ∈ nodes, x ∈ node
  same : ∀ node ∈ nodes, ∀ x ∈ node, ∀ y,
    (y ∈ node ↔ y ∈ points ∧ Linked near (· ∈ points) x y)

/-- Two points are within `eps` of each other; the distance of a pair is computed once, from
the later row to the earlier one. -/
def RowsNear (metric : (ℕ → K) → (ℕ → K) → K) (data : ℕ → ℕ → K) (eps : WithTop K) (x y : ℕ) :
    Prop :=
  (metric (data (max x y)) (data (min x y)) : WithTop K) ≤ eps

variable {metric : (ℕ → K) → (ℕ → K) → K} {data : ℕ → ℕ → K} {eps : WithTop K} {hc : List ℕ}
  {i j x y : ℕ}

theorem RowsNear.symm (h : RowsNear metric data eps x y) : RowsNear metric data eps y x := by
  unfold RowsNear
  rwa [max_comm, min_comm]

theorem getD_lt (hasc : hc.Pairwise (· < ·)) (hij : i < j) (hj : j < hc.length) :
    hc.getD i 0 < hc.getD j 0 := by
  rw [List.getD_eq_getElem _ _ (hij.trans hj), List.getD_eq_getElem _ _ hj]
  exact List.pairwise_iff_getElem.mp hasc i j _ _ hij

theorem getD_mem (hi : i < hc.length) : hc.getD i 0 ∈ hc := by
  rw [List.getD_eq_getElem _ _ hi]
  exact List.getElem_mem hi

theorem exists_getD (hx : x ∈ hc) : ∃ i < hc.length, hc.getD i 0 = x := by
  obtain ⟨i, hi, rfl⟩ := List.getElem_of_mem hx
  exact ⟨i, hi, List.getD_eq_getElem _ _ hi⟩

theorem getD_inj (hasc : hc.Pairwise (· < ·)) (hi : i < hc.length) (hj : j < hc.length)
    (heq : hc.getD i 0 = hc.getD j 0) : i = j := by
  rcases Nat.lt_trichotomy i j with hlt | rfl | hlt
  · exact absurd heq (Nat.ne_of_lt (getD_lt hasc hlt hj))
  · rfl
  · exact absurd heq.symm (Nat.ne_of_lt (getD_lt hasc hlt hi))

/-- A chain of rows of the hypercube is a chain of points. -/
theorem linked_rows_iff {near : ℕ → ℕ → Prop} (hasc : hc.Pairwise (· < ·)) (hi : i < hc.length)
    (hj : j < hc.length) :
    Linked (fun i j => near (hc.getD i 0) (hc.getD j 0)) (· < hc.length) i j ↔
      Linked near (· ∈ hc) (hc.getD i 0) (hc.getD j 0) := by
  constructor
  · intro h
    induction h with
    | refl => exact .refl _
    | @tail a b hab hstep ih =>
        have hlinked : Linked (fun i j => near (hc.getD i 0) (hc.getD j 0)) (· < hc.length) i a :=
          hab
        exact (ih (hlinked.core_right hi)).tail hstep.1 (getD_mem hstep.2)
  · intro h
    have hex : ∀ y, Linked near (· ∈ hc) (hc.getD i 0) y → ∃ j < hc.length, hc.getD j 0 = y ∧
        Linked (fun i j => near (hc.getD i 0) (hc.getD j 0)) (· < hc.length) i j := by
      intro y hy
      induction hy with
      | refl => exact ⟨i, hi, rfl, .refl i⟩
      | tail _ hstep ih =>
          obtain ⟨a, ha, rfl, hlinked⟩ := ih
          obtain ⟨b, hb, rfl⟩ := exists_getD hstep.2
          exact ⟨b, hb, rfl, hlinked.tail hstep.1 hb⟩
    obtain ⟨j', hj', heq, hlinked⟩ := hex _ h
    rwa [getD_inj hasc hj' hj heq] at hlinked

theorem mem_labelNodes {labels : ℕ → ℤ} {nc : ℕ} {node : List ℕ} :
    node ∈ labelNodes labels nc hc ↔ ∃ c < nc, node ≠ [] ∧
      node = ((List.range hc.length).filter fun i => labels i = (c : ℤ)).map fun i =>
        hc.getD i 0 := by
  unfold labelNodes
  rw [List.mem_filter, List.mem_map]
  simp only [List.mem_range, decide_eq_true_eq]
  constructor
  · rintro ⟨⟨c, hc, rfl⟩, hne⟩
    exact ⟨c, hc, hne, rfl⟩
  · rintro ⟨c, hc, hne, rfl⟩
    exact ⟨⟨c, hc, rfl⟩, hne⟩

theorem mem_labelled {labels : ℕ → ℤ} {c : ℕ} :
    x ∈ (((List.range hc.length).filter fun i => labels i = (c : ℤ)).map fun i =>
      hc.getD i 0) ↔ ∃ i < hc.length, labels i = c ∧ hc.getD i 0 = x := by
  simp only [List.mem_map, List.mem_filter, List.mem_range, decide_eq_true_eq, and_assoc]

/-- **The nodes of labels that number the clusters of a hypercube are its clusters.** -/
theorem labelNodes_clusters {near : ℕ → ℕ → Prop} {labels : ℕ → ℤ} {nc : ℕ}
    (hasc : hc.Pairwise (· < ·))
    (h : Numbers hc.length nc (fun i j =>
      Linked (fun i j => near (hc.getD i 0) (hc.getD j 0)) (· < hc.length) i j) labels) :
    Clusters near hc (labelNodes labels nc hc) := by
  refine ⟨fun node hnode => ?_, fun node hnode => ?_, ?_, fun x hx => ?_,
    fun node hnode x hx y => ?_⟩
  · obtain ⟨c, -, -, rfl⟩ := mem_labelNodes.mp hnode
    refine List.pairwise_map.mpr ?_
    have hrange : ((List.range hc.length).filter fun i => labels i = (c : ℤ)).Pairwise
        (· < ·) := List.pairwise_lt_range.filter _
    refine hrange.imp_of_mem fun hi hj hlt => getD_lt hasc hlt ?_
    exact List.mem_range.mp (List.mem_filter.mp hj).1
  · obtain ⟨c, -, hne, -⟩ := mem_labelNodes.mp hnode
    exact hne
  · -- two nodes have points with different labels
    unfold labelNodes
    refine List.pairwise_filter.mpr (List.pairwise_map.mpr ?_)
    refine List.pairwise_lt_range.imp fun {c c'} hlt hne _ heq => ?_
    obtain ⟨x, hx⟩ := List.exists_mem_of_ne_nil _ (of_decide_eq_true hne)
    obtain ⟨i, hi, hlabel, hxi⟩ := mem_labelled.mp hx
    rw [heq] at hx
    obtain ⟨j, hj, hlabel', hxj⟩ := mem_labelled.mp hx
    obtain rfl := getD_inj hasc hi hj (hxi.trans hxj.symm)
    rw [hlabel] at hlabel'
    omega
  · obtain ⟨i, hi, rfl⟩ := exists_getD hx
    obtain ⟨hpos, hlt⟩ := h.range i hi
    have hlabel : labels i = (labels i).toNat := by omega
    have hmem := mem_labelled.mpr ⟨i, hi, hlabel, rfl⟩
    refine ⟨_, mem_labelNodes.mpr ⟨(labels i).toNat, by omega, ?_, rfl⟩, hmem⟩
    exact List.ne_nil_of_mem hmem
  · obtain ⟨c, hcn, -, rfl⟩ := mem_labelNodes.mp hnode
    obtain ⟨i, hi, hlabel, rfl⟩ := mem_labelled.mp hx
    rw [mem_labelled]
    constructor
    · rintro ⟨j, hj, hlabel', rfl⟩
      refine ⟨getD_mem hj, (linked_rows_iff hasc hi hj).mp ?_⟩
      exact (h.same i hi j hj).mp (hlabel.trans hlabel'.symm)
    · rintro ⟨hy, hlinked⟩
      obtain ⟨j, hj, rfl⟩ := exists_getD hy
      have hsame := (h.same i hi j hj).mpr ((linked_rows_iff hasc hi hj).mpr hlinked)
      exact ⟨j, hj, hsame.symm.trans hlabel, rfl⟩

variable {qsort : List (ℕ × WithTop K) → List (ℕ × WithTop K)} {e : K}

/-- The nodes of a hypercube are its single-linkage clusters. -/
theorem clusterBin_clusters (hperm : ∀ l, (qsort l).Perm l)
    (hsorted : ∀ l, (qsort l).Pairwise fun a b => a.2 ≤ b.2) (hasc : hc.Pairwise (· < ·))
    (hlen : 2 ≤ hc.length) :
    Clusters (RowsNear metric data e) hc (clusterBin qsort metric data e hc) := by
  have hlink : Linkage (fun h i j => RowsNear metric data h (hc.getD i 0) (hc.getD j 0)) hc.length
      (slinkPointers (fun i j => (metric (data (hc.getD i 0)) (data (hc.getD j 0)) : WithTop K))
        hc.length) := by
    refine slinkPointers_linkage _ _ (fun i _ j _ => WithTop.coe_lt_top _)
      (fun _ _ _ h => h.symm) fun h i hi j hj => ?_
    have hlt := getD_lt hasc hj hi
    rw [RowsNear, max_eq_left hlt.le, min_eq_right hlt.le]
  exact labelNodes_clusters hasc (hlink.cut hlen hperm hsorted (e : WithTop K) fun _ => 0)

/-! ## The graph -/

section Graph

variable [Field K]

theorem flatMap_ite {α β : Type} (p : α → Prop) [DecidablePred p] (f : α → List β) (l : List α) :
    (l.flatMap fun a => if p a then f a else []) = (l.filter p).flatMap f := by
  induction l with
  | nil => rfl
  | cons a l ih =>
      rw [List.flatMap_cons, ih]
      by_cases ha : p a <;> simp [ha]

/-- The hypercubes with at least two points, with their numbers. -/
def clusteredBins (n ndims : ℕ) (lens : ℕ → ℕ → K) (cover : Cover K) : List (List ℕ × ℕ) :=
  (mapperCoverTransform n ndims lens cover).zipIdx.filter fun bin => 2 ≤ bin.1.length

/-- They are the points inside the hypercube, in ascending order. -/
theorem mem_clusteredBins {n ndims : ℕ} {lens : ℕ → ℕ → K} {cover : Cover K} {bin : List ℕ × ℕ} :
    bin ∈ clusteredBins n ndims lens cover ↔ ∃ center, cover.centers[bin.2]? = some center ∧
      bin.1 = members n ndims lens cover.radii center ∧ 2 ≤ bin.1.length := by
  obtain ⟨points, h⟩ := bin
  unfold clusteredBins mapperCoverTransform
  rw [List.mem_filter, List.mk_mem_zipIdx_iff_getElem?, List.getElem?_map, Option.map_eq_some_iff,
    decide_eq_true_eq]
  constructor
  · rintro ⟨⟨center, hcenter, rfl⟩, hlen⟩
    refine ⟨center, hcenter, ?_, hlen⟩
    by_cases hempty : members n ndims lens cover.radii center = []
    · simp [hempty] at hlen
    · exact if_neg hempty
  · rintro ⟨center, hcenter, rfl, hlen⟩
    refine ⟨⟨center, hcenter, if_neg fun hempty => ?_⟩, hlen⟩
    simp [hempty] at hlen

theorem members_ascending (n ndims : ℕ) (lens : ℕ → ℕ → K) (radii : ℕ → K) (center : List K) :
    (members n ndims lens radii center).Pairwise (· < ·) := List.pairwise_lt_range.filter _

variable [IsStrictOrderedRing K] {n ndims nCubes minIntersection : ℕ} {lens : ℕ → ℕ → K}
  {overlap : K}

end Graph

/-- Four points on a line, which are their own lens. -/
def linePoints (i _ : ℕ) : ℚ := ([0, 1, 2, 5] : List ℚ).getD i 0

/-- The distance of two rows of one column. -/
def lineMetric (a b : ℕ → ℚ) : ℚ := |a 0 - b 0|

end Lush.Mapper
