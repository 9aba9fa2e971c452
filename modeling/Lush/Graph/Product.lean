import Lush.Graph.Search

/-!
# Composition is the product of path sets

The walks of the frame of `g-compose` are the pairs of paths of its graphs that are as long as each
other and whose links check (`composeFrame_walk`), and those of the frame of `g-transform` the paths
whose links check (`transformFrame_walk`).  The search finds them all, for any two graphs
(`compose_transform_paths`).
-/

namespace Lush.Graph

open Walks (Walk)
open GGraph (startnode endnode)

variable {κ δ : Type} [Add κ] {graph graph1 graph2 : GGraph κ δ}
  {check : GLink κ δ → GLink κ δ → Bool}

/-! ## One graph -/

theorem mem_transformFrame_out {v : ℕ} {l : GLink κ δ} :
    l ∈ (transformFrame graph check).out v ↔ l ∈ graph.downlink v ∧ check l l = true := by
  simp [transformFrame]

theorem transformFrame_proper : (transformFrame graph check).Proper where
  apart hv hw := by
    obtain ⟨-, rfl⟩ := GGraph.mem_downlink.mp (mem_transformFrame_out.mp hv).1
    exact (GGraph.mem_downlink.mp (mem_transformFrame_out.mp hw).1).2
  nodup _ := (GGraph.links_nodup.filter _).filter _

theorem transformFrame_walk {a b : ℕ} {p : List (GLink κ δ)} :
    Walk (transformFrame graph check).out (transformFrame graph check).dst a p b ↔
      graph.Path a p b ∧ ∀ l ∈ p, check l l = true := by
  induction p generalizing a with
  | nil => simp [GGraph.Path]
  | cons l p ih =>
      rw [Walks.walk_cons, ih, mem_transformFrame_out, GGraph.path_cons, List.forall_mem_cons]
      exact and_and_and_comm

/-- `g-transform` keeps the paths whose links check. -/
theorem gTransform_paths (graph : GGraph κ δ) (check : GLink κ δ → GLink κ δ → Bool) :
    ∃ (g : GGraph κ δ) (origin : GLink κ δ → GLink κ δ),
    gTransform graph check = .ok g ∧
    Set.BijOn (List.map origin) g.Paths {p ∈ graph.Paths | ∀ l ∈ p, check l l = true} ∧
    ∀ l ∈ g.links, Carries (transformFrame graph check) (origin l) l := by
  have hclosed : ∀ v ∈ Set.Iio graph.nnodes, ∀ l ∈ (transformFrame graph check).out v,
      (transformFrame graph check).dst l ∈ Set.Iio graph.nnodes := by
    intro v _ l hl
    exact (graph.bounds l (GGraph.mem_downlink.mp (mem_transformFrame_out.mp hl).1).1).2
  have hstop : (transformFrame graph check).out endnode = [] := by
    rw [List.eq_nil_iff_forall_not_mem]
    intro l hl
    have hmem := (mem_transformFrame_out.mp hl).1
    rw [GGraph.downlink_endnode] at hmem
    cases hmem
  have hfuel : (Set.Iio graph.nnodes).ncard < graph.nnodes + 1 := by
    rw [← Finset.coe_range, Set.ncard_coe_finset, Finset.card_range]
    exact Nat.lt_succ_self _
  have hstart : startnode ∈ Set.Iio graph.nnodes := Nat.two_pos.trans_le graph.two_le
  have hne : startnode ≠ endnode := Nat.zero_ne_one
  obtain ⟨g, origin, heq, hbij, hcarries, -⟩ := buildGraph_paths transformFrame_proper
    (Set.finite_Iio graph.nnodes) hclosed hstart hne hstop hfuel id
  have hwalks : {p ∈ graph.Paths | ∀ l ∈ p, check l l = true} =
      {p | Walk (transformFrame graph check).out (transformFrame graph check).dst startnode p
        endnode} := by
    ext p
    exact transformFrame_walk.symm
  exact ⟨g, origin, heq, hwalks ▸ hbij, hcarries⟩

/-! ## Two graphs -/

theorem mem_composeFrame_out {v : ℕ × ℕ} {l : GLink κ δ × GLink κ δ} :
    l ∈ (composeFrame graph1 graph2 check).out v ↔
      l.1 ∈ graph1.downlink v.1 ∧ l.2 ∈ graph2.downlink v.2 ∧ check l.1 l.2 = true := by
  obtain ⟨l1, l2⟩ := l
  simp [composeFrame]

theorem composeFrame_proper : (composeFrame graph1 graph2 check).Proper where
  apart hv hw := by
    obtain ⟨hv1, hv2, -⟩ := mem_composeFrame_out.mp hv
    obtain ⟨hw1, hw2, -⟩ := mem_composeFrame_out.mp hw
    refine Prod.ext ?_ ?_
    · exact (GGraph.mem_downlink.mp hv1).2.symm.trans (GGraph.mem_downlink.mp hw1).2
    · exact (GGraph.mem_downlink.mp hv2).2.symm.trans (GGraph.mem_downlink.mp hw2).2
  nodup v := by
    refine List.nodup_flatMap.mpr ⟨fun l1 _ => ?_, ?_⟩
    · exact ((GGraph.links_nodup.filter _).filter _).map (Prod.mk_right_injective l1)
    · refine (GGraph.links_nodup.filter _).imp fun hne l hl hl' => ?_
      obtain ⟨l2, -, rfl⟩ := List.mem_map.mp hl
      obtain ⟨l2', -, heq⟩ := List.mem_map.mp hl'
      exact hne (Prod.mk.inj heq).1.symm

/-- A walk is a path of each graph. -/
theorem composeFrame_walk {a b : ℕ × ℕ} {p : List (GLink κ δ × GLink κ δ)} :
    Walk (composeFrame graph1 graph2 check).out (composeFrame graph1 graph2 check).dst a p b ↔
      graph1.Path a.1 (p.map Prod.fst) b.1 ∧ graph2.Path a.2 (p.map Prod.snd) b.2 ∧
        ∀ l ∈ p, check l.1 l.2 = true := by
  induction p generalizing a with
  | nil => simp [Prod.ext_iff]
  | cons l p ih =>
      rw [Walks.walk_cons, ih, mem_composeFrame_out, List.map_cons, List.map_cons,
        GGraph.path_cons, GGraph.path_cons, List.forall_mem_cons]
      constructor
      · rintro ⟨⟨h1, h2, hcheck⟩, hp1, hp2, hp⟩
        exact ⟨⟨h1, hp1⟩, ⟨h2, hp2⟩, hcheck, hp⟩
      · rintro ⟨⟨h1, hp1⟩, ⟨h2, hp2⟩, hcheck, hp⟩
        exact ⟨⟨h1, h2, hcheck⟩, hp1, hp2, hp⟩

/-- Walks and pairs of paths. -/
theorem bijOn_unzip : Set.BijOn
    (fun p : List (GLink κ δ × GLink κ δ) => (p.map Prod.fst, p.map Prod.snd))
    {p | Walk (composeFrame graph1 graph2 check).out (composeFrame graph1 graph2 check).dst
      (startnode, startnode) p (endnode, endnode)}
    {p | p.1 ∈ graph1.Paths ∧ p.2 ∈ graph2.Paths ∧
      List.Forall₂ (fun l1 l2 => check l1 l2 = true) p.1 p.2} := by
  have hzip : ∀ p : List (GLink κ δ × GLink κ δ), (p.map Prod.fst).zip (p.map Prod.snd) = p := by
    intro p
    rw [← List.unzip_fst, ← List.unzip_snd]
    exact List.zip_unzip p
  refine ⟨fun p hp => ?_, fun p _ q _ heq => ?_, ?_⟩
  · obtain ⟨h1, h2, hcheck⟩ := composeFrame_walk.mp hp
    refine ⟨h1, h2, ?_⟩
    rw [List.forall₂_map_left_iff, List.forall₂_map_right_iff, List.forall₂_same]
    exact hcheck
  · obtain ⟨h1, h2⟩ := Prod.mk.inj heq
    rw [← hzip p, ← hzip q, h1, h2]
  · rintro ⟨p1, p2⟩ ⟨h1, h2, hcheck⟩
    obtain ⟨hlength, hcheck⟩ := List.forall₂_iff_zip.mp hcheck
    have hfst : (p1.zip p2).map Prod.fst = p1 := List.map_fst_zip hlength.le
    have hsnd : (p1.zip p2).map Prod.snd = p2 := List.map_snd_zip hlength.ge
    refine ⟨p1.zip p2, composeFrame_walk.mpr ⟨?_, ?_, fun l hl => hcheck hl⟩, ?_⟩
    · rwa [hfst]
    · rwa [hsnd]
    · exact Prod.ext hfst hsnd

/-- `g-compose` keeps the pairs of paths whose links check. -/
theorem gCompose_paths (graph1 graph2 : GGraph κ δ) (check : GLink κ δ → GLink κ δ → Bool) :
    ∃ (g : GGraph κ δ) (origin : GLink κ δ → GLink κ δ × GLink κ δ),
    gCompose graph1 graph2 check = .ok g ∧
    Set.BijOn (List.map origin) g.Paths
      {p | Walk (composeFrame graph1 graph2 check).out (composeFrame graph1 graph2 check).dst
        (startnode, startnode) p (endnode, endnode)} ∧
    (∀ l ∈ g.links, Carries (composeFrame graph1 graph2 check) (origin l) l) ∧
    (Walks.Acyclic (composeFrame graph1 graph2 check).out (composeFrame graph1 graph2 check).dst →
      g.Acyclic) := by
  let U := Finset.range graph1.nnodes ×ˢ Finset.range graph2.nnodes
  have hclosed : ∀ v ∈ (U : Set (ℕ × ℕ)), ∀ l ∈ (composeFrame graph1 graph2 check).out v,
      (composeFrame graph1 graph2 check).dst l ∈ (U : Set (ℕ × ℕ)) := by
    intro v _ l hl
    obtain ⟨h1, h2, -⟩ := mem_composeFrame_out.mp hl
    have hbound1 := (graph1.bounds l.1 (GGraph.mem_downlink.mp h1).1).2
    have hbound2 := (graph2.bounds l.2 (GGraph.mem_downlink.mp h2).1).2
    exact Finset.mem_product.mpr ⟨Finset.mem_range.mpr hbound1, Finset.mem_range.mpr hbound2⟩
  have hstart : (startnode, startnode) ∈ (U : Set (ℕ × ℕ)) :=
    Finset.mem_product.mpr ⟨Finset.mem_range.mpr (Nat.two_pos.trans_le graph1.two_le),
      Finset.mem_range.mpr (Nat.two_pos.trans_le graph2.two_le)⟩
  have hne : (startnode, startnode) ≠ (endnode, endnode) := by decide
  have hstop : (composeFrame graph1 graph2 check).out (endnode, endnode) = [] := by
    rw [List.eq_nil_iff_forall_not_mem]
    intro l hl
    have hmem := (mem_composeFrame_out.mp hl).1
    rw [GGraph.downlink_endnode] at hmem
    cases hmem
  have hfuel : (U : Set (ℕ × ℕ)).ncard < graph1.nnodes * graph2.nnodes + 1 := by
    rw [Set.ncard_coe_finset, Finset.card_product, Finset.card_range, Finset.card_range]
    exact Nat.lt_succ_self _
  exact buildGraph_paths composeFrame_proper U.finite_toSet hclosed hstart hne hstop hfuel
    fun l => (l, l)

/-- **The paths of a composition** are the pairs of paths whose links check, and those of a
transformed graph the paths whose links check. -/
theorem compose_transform_paths (graph1 graph2 : GGraph κ δ)
    (check : GLink κ δ → GLink κ δ → Bool) :
    (∃ (g : GGraph κ δ) (origin1 origin2 : GLink κ δ → GLink κ δ),
      gCompose graph1 graph2 check = .ok g ∧
      Set.BijOn (fun p => (p.map origin1, p.map origin2)) g.Paths
        {p | p.1 ∈ graph1.Paths ∧ p.2 ∈ graph2.Paths ∧
          List.Forall₂ (fun l1 l2 => check l1 l2 = true) p.1 p.2} ∧
      ∀ l ∈ g.links, l.cost = (origin1 l).cost + (origin2 l).cost ∧
        l.label = (origin2 l).label ∧ l.meaning = (origin2 l).meaning ∧
        l.data = (origin1 l).data) ∧
    ∀ graph : GGraph κ δ, ∃ (g : GGraph κ δ) (origin : GLink κ δ → GLink κ δ),
      gTransform graph check = .ok g ∧
      Set.BijOn (List.map origin) g.Paths {p ∈ graph.Paths | ∀ l ∈ p, check l l = true} ∧
      ∀ l ∈ g.links, l.cost = (origin l).cost + (origin l).cost ∧ l.label = (origin l).label ∧
        l.meaning = (origin l).meaning ∧ l.data = (origin l).data := by
  refine ⟨?_, fun graph => ?_⟩
  · obtain ⟨g, origin, heq, hbij, hcarries, -⟩ := gCompose_paths graph1 graph2 check
    refine ⟨g, fun l => (origin l).1, fun l => (origin l).2, heq, ?_, fun l hl => ?_⟩
    · have hcomp := bijOn_unzip.comp hbij
      simpa only [Function.comp_def, List.map_map] using hcomp
    · obtain ⟨hcost, hlabel, hmeaning, hdata⟩ := hcarries l hl
      exact ⟨hcost, hlabel, hmeaning, hdata⟩
  · obtain ⟨g, origin, heq, hbij, hcarries⟩ := gTransform_paths graph check
    refine ⟨g, origin, heq, hbij, fun l hl => ?_⟩
    obtain ⟨hcost, hlabel, hmeaning, hdata⟩ := hcarries l hl
    exact ⟨hcost, hlabel, hmeaning, hdata⟩

end Lush.Graph
