import Lush.Basic

/-!
# The nerve of some nodes

The function `mapper-build-nerve` of `graph.lsh`.  Two nodes from different hypercubes are
connected when they share enough points; the points of a node are in ascending order, so that
one merge counts those that two nodes share (`mapper_sorted_isect_count` of `mapper-c.c`).
-/

namespace Lush.Mapper

/-- `mapper_sorted_isect_count(a, na, b, nb)`. -/
def mapperSortedIsectCount : List ℕ → List ℕ → ℕ
  | [], _ => 0
  | _ :: _, [] => 0
  | a :: as, b :: bs =>
      if a < b then mapperSortedIsectCount as (b :: bs)
      else if b < a then mapperSortedIsectCount (a :: as) bs
      else mapperSortedIsectCount as bs + 1
termination_by as bs => as.length + bs.length

/-- The slots of a `MapperGraph` that the functions here fill. -/
structure MapperGraph where
  nodes : List (List ℕ)
  nodeBins : List ℕ
  edges : List (ℕ × ℕ)
  edgeWeights : List ℕ
  nodeSizes : List ℕ
deriving DecidableEq

/-- The edge between two nodes, each with its hypercube and its number, if there is one. -/
def nerveEdge (minIntersection : ℕ) (p q : (List ℕ × ℕ) × ℕ) : Option ((ℕ × ℕ) × ℕ) :=
  if p.2 < q.2 ∧ p.1.2 ≠ q.1.2 ∧ minIntersection ≤ mapperSortedIsectCount p.1.1 q.1.1 then
    some ((p.2, q.2), mapperSortedIsectCount p.1.1 q.1.1)
  else none

/-- The edges with their weights, in the order of the two loops. -/
def nerveEdges (nodeList : List (List ℕ)) (nodeBinList : List ℕ) (minIntersection : ℕ) :
    List ((ℕ × ℕ) × ℕ) :=
  (nodeList.zip nodeBinList).zipIdx.flatMap fun p =>
    (nodeList.zip nodeBinList).zipIdx.filterMap (nerveEdge minIntersection p)

/-- `mapper-build-nerve`. -/
def mapperBuildNerve (nodeList : List (List ℕ)) (nodeBinList : List ℕ) (minIntersection : ℕ) :
    MapperGraph where
  nodes := nodeList
  nodeBins := nodeBinList
  edges := (nerveEdges nodeList nodeBinList minIntersection).map Prod.fst
  edgeWeights := (nerveEdges nodeList nodeBinList minIntersection).map Prod.snd
  nodeSizes := nodeList.map List.length

/-! ## Shared points -/

/-- **One merge counts the points that two ascending nodes share.** -/
theorem mapperSortedIsectCount_eq {as bs : List ℕ} (has : as.Pairwise (· < ·))
    (hbs : bs.Pairwise (· < ·)) :
    mapperSortedIsectCount as bs = (as.toFinset ∩ bs.toFinset).card := by
  induction as, bs using mapperSortedIsectCount.induct with
  | case1 bs => simp [mapperSortedIsectCount]
  | case2 a as => simp [mapperSortedIsectCount]
  | case3 a as b bs hlt ih =>
      -- the first point of the one node is below all points of the other
      obtain ⟨-, has'⟩ := List.pairwise_cons.mp has
      have hnot : a ∉ (b :: bs).toFinset := by
        intro hmem
        rcases List.mem_cons.mp (List.mem_toFinset.mp hmem) with rfl | hmem
        · exact absurd hlt (lt_irrefl _)
        · exact absurd ((List.pairwise_cons.mp hbs).1 a hmem) (by omega)
      have hcons : (a :: as).toFinset = insert a as.toFinset := List.toFinset_cons
      rw [mapperSortedIsectCount, if_pos hlt, ih has' hbs, hcons,
        Finset.insert_inter_of_notMem hnot]
  | case4 a as b bs hge hlt ih =>
      obtain ⟨-, hbs'⟩ := List.pairwise_cons.mp hbs
      have hnot : b ∉ (a :: as).toFinset := by
        intro hmem
        rcases List.mem_cons.mp (List.mem_toFinset.mp hmem) with rfl | hmem
        · exact absurd hlt (lt_irrefl _)
        · exact absurd ((List.pairwise_cons.mp has).1 b hmem) (by omega)
      have hcons : (b :: bs).toFinset = insert b bs.toFinset := List.toFinset_cons
      rw [mapperSortedIsectCount, if_neg hge, if_pos hlt, ih has hbs', hcons,
        Finset.inter_insert_of_notMem hnot]
  | case5 a as b bs hge hge' ih =>
      obtain rfl : a = b := by omega
      obtain ⟨hfirst, has'⟩ := List.pairwise_cons.mp has
      obtain ⟨-, hbs'⟩ := List.pairwise_cons.mp hbs
      have hnot : a ∉ as.toFinset ∩ bs.toFinset := by
        intro hmem
        have := hfirst a (List.mem_toFinset.mp (Finset.mem_inter.mp hmem).1)
        omega
      rw [mapperSortedIsectCount, if_neg hge, if_neg hge', ih has' hbs', List.toFinset_cons,
        List.toFinset_cons, ← Finset.insert_inter_distrib, Finset.card_insert_of_notMem hnot]

/-! ## The edges -/

variable {nodeList : List (List ℕ)} {nodeBinList : List ℕ} {minIntersection : ℕ}

theorem nerveEdge_eq_some {p q : (List ℕ × ℕ) × ℕ} {e : (ℕ × ℕ) × ℕ} :
    nerveEdge minIntersection p q = some e ↔
      (p.2 < q.2 ∧ p.1.2 ≠ q.1.2 ∧ minIntersection ≤ mapperSortedIsectCount p.1.1 q.1.1) ∧
        ((p.2, q.2), mapperSortedIsectCount p.1.1 q.1.1) = e := by
  unfold nerveEdge
  split_ifs with h <;> simp [h]

theorem edges_zip (nodeList : List (List ℕ)) (nodeBinList : List ℕ) (minIntersection : ℕ) :
    (mapperBuildNerve nodeList nodeBinList minIntersection).edges.zip
        (mapperBuildNerve nodeList nodeBinList minIntersection).edgeWeights =
      nerveEdges nodeList nodeBinList minIntersection :=
  (List.zip_of_prod rfl rfl).symm

/-- **There is an edge between two nodes from different hypercubes that share enough
points.** -/
theorem mem_nerveEdges {i j w : ℕ} :
    ((i, j), w) ∈ nerveEdges nodeList nodeBinList minIntersection ↔
      i < j ∧ ∃ ni nj bi bj, nodeList[i]? = some ni ∧ nodeList[j]? = some nj ∧
        nodeBinList[i]? = some bi ∧ nodeBinList[j]? = some bj ∧ bi ≠ bj ∧
        w = mapperSortedIsectCount ni nj ∧ minIntersection ≤ w := by
  have hnode : ∀ (node : List ℕ) (bin k : ℕ),
      ((node, bin), k) ∈ (nodeList.zip nodeBinList).zipIdx ↔
        nodeList[k]? = some node ∧ nodeBinList[k]? = some bin := by
    intro node bin k
    rw [List.mk_mem_zipIdx_iff_getElem?, List.getElem?_zip_eq_some]
  unfold nerveEdges
  rw [List.mem_flatMap]
  constructor
  · rintro ⟨⟨⟨ni, bi⟩, i'⟩, hp, hmem⟩
    obtain ⟨⟨⟨nj, bj⟩, j'⟩, hq, hedge⟩ := List.mem_filterMap.mp hmem
    obtain ⟨⟨hlt, hbins, hle⟩, heq⟩ := nerveEdge_eq_some.mp hedge
    obtain ⟨hij, rfl⟩ := Prod.mk.inj heq
    obtain ⟨rfl, rfl⟩ := Prod.mk.inj hij
    obtain ⟨hni, hbi⟩ := (hnode ni bi _).mp hp
    obtain ⟨hnj, hbj⟩ := (hnode nj bj _).mp hq
    exact ⟨hlt, ni, nj, bi, bj, hni, hnj, hbi, hbj, hbins, rfl, hle⟩
  · rintro ⟨hlt, ni, nj, bi, bj, hni, hnj, hbi, hbj, hbins, rfl, hle⟩
    refine ⟨((ni, bi), i), (hnode ni bi i).mpr ⟨hni, hbi⟩, List.mem_filterMap.mpr
      ⟨((nj, bj), j), (hnode nj bj j).mpr ⟨hnj, hbj⟩, ?_⟩⟩
    exact nerveEdge_eq_some.mpr ⟨⟨hlt, hbins, hle⟩, rfl⟩

/-- The numbers of the nodes ascend. -/
theorem pairwise_zipIdx {α : Type} (l : List α) : l.zipIdx.Pairwise fun p q => p.2 < q.2 := by
  rw [← List.pairwise_map (f := Prod.snd) (R := fun i j => i < j), List.zipIdx_map_snd]
  exact List.pairwise_lt_range'

/-- The edges are in the order of the numbers of their nodes, so that none is there twice. -/
theorem edges_nodup (nodeList : List (List ℕ)) (nodeBinList : List ℕ) (minIntersection : ℕ) :
    (mapperBuildNerve nodeList nodeBinList minIntersection).edges.Nodup := by
  have hpairwise := pairwise_zipIdx (nodeList.zip nodeBinList)
  have hordered : (nerveEdges nodeList nodeBinList minIntersection).Pairwise fun e f =>
      e.1.1 < f.1.1 ∨ e.1.1 = f.1.1 ∧ e.1.2 < f.1.2 := by
    refine List.pairwise_flatMap.mpr ⟨fun p _ => ?_, hpairwise.imp fun hlt e he f hf => ?_⟩
    · refine List.pairwise_filterMap.mpr (hpairwise.imp fun hlt e he f hf => .inr ?_)
      obtain ⟨-, rfl⟩ := nerveEdge_eq_some.mp he
      obtain ⟨-, rfl⟩ := nerveEdge_eq_some.mp hf
      exact ⟨rfl, hlt⟩
    · obtain ⟨q, -, he⟩ := List.mem_filterMap.mp he
      obtain ⟨q', -, hf⟩ := List.mem_filterMap.mp hf
      obtain ⟨-, rfl⟩ := nerveEdge_eq_some.mp he
      obtain ⟨-, rfl⟩ := nerveEdge_eq_some.mp hf
      exact .inl hlt
  refine List.pairwise_map.mpr (hordered.imp fun hlt heq => ?_)
  rw [heq] at hlt
  omega

end Lush.Mapper
