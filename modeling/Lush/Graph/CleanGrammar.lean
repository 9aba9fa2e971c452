import Lush.Graph.Boundary

/-!
# A graph without null transitions

`gram-cleanup` keeps the words of a graph whose null transitions form no cycle
(`cleans_of_nullAcyclic`): the new graph has a node for every boundary, and the links of a node are
those that are left when the null transitions before them are passed over.

On a cycle of null transitions a boundary can be read before it is known, and words are lost
(`not_cleans_loop`).
-/

namespace Lush.Graph

open Automata (Reads Nulls)
open GGraph (startnode endnode)

variable {κ δ : Type}

/-! ## Words of a graph -/

section

variable {g graph ngraph : GGraph κ δ} {v u w : ℕ} {x : List ℤ}

/-- The labels of the links of a path but the null transitions. -/
def labels (p : List (GLink κ δ)) : List ℤ := (p.map GLink.label).filter (· ≠ labNull)

/-- A graph accepts the labels of its paths. -/
def GGraph.Accepts (g : GGraph κ δ) (x : List ℤ) : Prop := ∃ p ∈ g.Paths, labels p = x

/-- Some path has null transitions only. -/
def GGraph.NullPath (g : GGraph κ δ) : Prop := ∃ p ∈ g.Paths, ∀ l ∈ p, l.label = labNull

theorem reads_iff : Reads g.step v x w ↔ ∃ p, g.Path v p w ∧ labels p = x := by
  constructor
  · intro h
    induction h with
    | nil v => exact ⟨[], rfl, rfl⟩
    | null hstep _ ih =>
        obtain ⟨l, hl, hread, rfl⟩ := hstep
        obtain ⟨p, hp, rfl⟩ := ih
        refine ⟨l :: p, ⟨hl, hp⟩, ?_⟩
        simp [labels, reading_eq_none.mp hread]
    | letter hstep _ ih =>
        obtain ⟨l, hl, hread, rfl⟩ := hstep
        obtain ⟨p, hp, rfl⟩ := ih
        obtain ⟨rfl, hlabel⟩ := reading_eq_some.mp hread
        refine ⟨l :: p, ⟨hl, hp⟩, ?_⟩
        simp [labels, hlabel]
  · rintro ⟨p, hp, rfl⟩
    induction p generalizing v with
    | nil =>
        obtain rfl : v = w := hp
        exact .nil v
    | cons l p ih =>
        have hrest := ih hp.2
        by_cases hnull : l.label = labNull
        · rw [show labels (l :: p) = labels p by simp [labels, hnull]]
          exact .null ⟨l, hp.1, reading_eq_none.mpr hnull, rfl⟩ hrest
        · rw [show labels (l :: p) = l.label :: labels p by simp [labels, hnull]]
          exact .letter ⟨l, hp.1, reading_eq_some.mpr ⟨rfl, hnull⟩, rfl⟩ hrest

theorem accepts_iff : g.Accepts x ↔ Reads g.step startnode x endnode := reads_iff.symm

theorem nullPath_iff : g.NullPath ↔ Nulls g.step startnode endnode := by
  rw [← Automata.reads_nil, reads_iff]
  refine exists_congr fun p => and_congr_right fun _ => ?_
  simp [labels, List.filter_eq_nil_iff]

theorem step_downnode_lt {a : Option ℤ} (h : g.step v a w) : w < g.nnodes := by
  obtain ⟨l, hl, -, rfl⟩ := h
  exact (g.bounds l (GGraph.mem_downlink.mp hl).1).2

theorem not_step_endnode {a : Option ℤ} : ¬g.step endnode a w := by
  rintro ⟨l, hl, -⟩
  rw [GGraph.downlink_endnode] at hl
  cases hl

theorem leads_of_reads (h : Reads g.step v x w) : g.Leads v w := by
  obtain ⟨p, hp, -⟩ := reads_iff.mp h
  exact ⟨p, hp⟩

/-- A copy in an empty graph reads the same words. -/
theorem Copied.reads_iff {nstart nend : ℕ} {name : ℕ → Option ℕ}
    (h : Copied graph ngraph nstart nend g name) (hnil : ngraph.links = [])
    (hv : name v = some u) : Reads g.step u x nend ↔ Reads graph.step v x endnode := by
  constructor
  · intro hreads
    have hback : ∀ {u a w v}, g.step u a w → name v = some u →
        ∃ v', graph.step v a v' ∧ name v' = some w := by
      rintro u a w v ⟨l', hl', hread, rfl⟩ hname
      obtain ⟨hmem, rfl⟩ := GGraph.mem_downlink.mp hl'
      rcases h.links l' hmem with hold | ⟨l, hl, hup, hdown, hcopy⟩
      · rw [hnil] at hold
        cases hold
      · obtain rfl := h.named hname hup
        exact ⟨l.downnode, ⟨l, GGraph.mem_downlink.mpr ⟨hl, rfl⟩, hcopy.label ▸ hread, rfl⟩, hdown⟩
    generalize hend : nend = t at hreads
    induction hreads generalizing v with
    | nil u =>
        obtain rfl := h.named hv (hend ▸ h.stop_named)
        exact .nil _
    | null hstep _ ih =>
        obtain ⟨v', hstep', hname⟩ := hback hstep hv
        exact .null hstep' (ih hname hend)
    | letter hstep _ ih =>
        obtain ⟨v', hstep', hname⟩ := hback hstep hv
        exact .letter hstep' (ih hname hend)
  · intro hreads
    have hforth : ∀ {v a v' u x}, graph.step v a v' → Reads graph.step v' x endnode →
        name v = some u → ∃ w, g.step u a w ∧ name v' = some w := by
      rintro v a v' u x ⟨l, hl, hread, rfl⟩ hrest hname
      obtain ⟨hmem, rfl⟩ := GGraph.mem_downlink.mp hl
      obtain ⟨l', hl', hup, hdown, hcopy⟩ :=
        h.complete l hmem (hname ▸ Option.some_ne_none u) (leads_of_reads hrest)
      obtain rfl : u = l'.upnode := Option.some.inj (hname.symm.trans hup)
      exact ⟨l'.downnode,
        ⟨l', GGraph.mem_downlink.mpr ⟨hl', rfl⟩, hcopy.label.symm ▸ hread, rfl⟩, hdown⟩
    generalize hend : endnode = t at hreads
    induction hreads generalizing u with
    | nil v =>
        obtain rfl : nend = u := Option.some.inj (h.stop_named.symm.trans (hend ▸ hv))
        exact .nil _
    | null hstep hrest ih =>
        obtain ⟨w, hstep', hname⟩ := hforth hstep (hend ▸ hrest) hv
        exact .null hstep' (ih hname hend)
    | letter hstep hrest ih =>
        obtain ⟨w, hstep', hname⟩ := hforth hstep (hend ▸ hrest) hv
        exact .letter hstep' (ih hname hend)

end

/-! ## Classes of nodes -/

section

variable {miset : ℕ → List ℕ} {n : ℕ}

/-- Nodes have the same number only if they have the same set; numbers are given in order. -/
structure Identified (miset : ℕ → List ℕ) (n : ℕ) (bstatus : ℕ → ℕ) (nk : ℕ) : Prop where
  lt : ∀ i < n, bstatus i < nk
  eq : ∀ i < n, ∀ j < n, bstatus i = bstatus j → miset i = miset j
  first : ∀ c < nk, ∃ i < n, bstatus i = c ∧ ∀ j < i, bstatus j < c

theorem lt_succ_cases {i n : ℕ} (h : i < n + 1) : i = n ∨ i < n := by omega

/-- Another node with a set that a node before it has. -/
theorem Identified.known {bstatus : ℕ → ℕ} {nk j : ℕ} (h : Identified miset n bstatus nk)
    (hj : j < n) (hset : miset n = miset j) :
    Identified miset (n + 1) (Function.update bstatus n (bstatus j)) nk := by
  have hself : Function.update bstatus n (bstatus j) n = bstatus j := Function.update_self ..
  have hold : ∀ {i}, i < n → Function.update bstatus n (bstatus j) i = bstatus i := fun hi =>
    Function.update_of_ne hi.ne ..
  refine ⟨fun i hi => ?_, fun i hi k hk heq => ?_, fun c hc => ?_⟩
  · rcases lt_succ_cases hi with rfl | hi
    · rw [hself]
      exact h.lt j hj
    · rw [hold hi]
      exact h.lt i hi
  · rcases lt_succ_cases hi with rfl | hi <;> rcases lt_succ_cases hk with rfl | hk
    · rfl
    · rw [hself, hold hk] at heq
      exact hset.trans (h.eq j hj k hk heq)
    · rw [hself, hold hi] at heq
      exact (h.eq i hi j hj heq).trans hset.symm
    · rw [hold hi, hold hk] at heq
      exact h.eq i hi k hk heq
  · obtain ⟨i, hi, heq, hlt⟩ := h.first c hc
    exact ⟨i, hi.trans (Nat.lt_succ_self n), (hold hi).trans heq,
      fun j hj => hold (hj.trans hi) ▸ hlt j hj⟩

/-- Another node with a set that is new. -/
theorem Identified.unknown {bstatus : ℕ → ℕ} {nk : ℕ} (h : Identified miset n bstatus nk) :
    Identified miset (n + 1) (Function.update bstatus n nk) (nk + 1) := by
  have hself : Function.update bstatus n nk n = nk := Function.update_self ..
  have hold : ∀ {i}, i < n → Function.update bstatus n nk i = bstatus i := fun hi =>
    Function.update_of_ne hi.ne ..
  refine ⟨fun i hi => ?_, fun i hi k hk heq => ?_, fun c hc => ?_⟩
  · rcases lt_succ_cases hi with rfl | hi
    · rw [hself]
      exact Nat.lt_succ_self nk
    · rw [hold hi]
      exact (h.lt i hi).trans (Nat.lt_succ_self nk)
  · rcases lt_succ_cases hi with rfl | hi <;> rcases lt_succ_cases hk with rfl | hk
    · rfl
    · rw [hself, hold hk] at heq
      exact absurd heq (h.lt k hk).ne'
    · rw [hself, hold hi] at heq
      exact absurd heq (h.lt i hi).ne
    · rw [hold hi, hold hk] at heq
      exact h.eq i hi k hk heq
  · rcases Nat.lt_succ_iff_lt_or_eq.mp hc with hc | rfl
    · obtain ⟨i, hi, heq, hlt⟩ := h.first c hc
      exact ⟨i, hi.trans (Nat.lt_succ_self n), (hold hi).trans heq,
        fun j hj => hold (hj.trans hi) ▸ hlt j hj⟩
    · exact ⟨n, Nat.lt_succ_self n, hself, fun j hj => hold hj ▸ h.lt j hj⟩

theorem identify_ok (miset : ℕ → List ℕ) (n : ℕ) :
    Identified miset n (identify miset n).1 (identify miset n).2 := by
  induction n with
  | zero =>
      refine ⟨fun i hi => ?_, fun i hi => ?_, fun c hc => ?_⟩
      · exact absurd hi (Nat.not_lt_zero i)
      · exact absurd hi (Nat.not_lt_zero i)
      · exact absurd hc (Nat.not_lt_zero c)
  | succ n ih =>
      unfold identify
      cases hfind : (List.range n).find? fun j => setCompare (miset n) (miset j) with
      | some j =>
          have hj : j < n := List.mem_range.mp (List.mem_of_find?_eq_some hfind)
          have hset : setCompare (miset n) (miset j) = true := by
            simpa using List.find?_some hfind
          exact ih.known hj (setCompare_iff.mp hset)
      | none => exact ih.unknown

/-- The first node of every number is among those whose links are used. -/
theorem mem_firsts {bstatus : ℕ → ℕ} {i : ℕ} {before after : List ℕ} {k : ℤ}
    (hk : k < bstatus i) (h : ∀ j ∈ before, bstatus j < bstatus i) :
    i ∈ firsts bstatus (before ++ i :: after) k := by
  induction before generalizing k with
  | nil =>
      rw [List.nil_append, firsts, if_pos hk]
      exact List.mem_cons_self
  | cons j before ih =>
      obtain ⟨hj, hrest⟩ := List.forall_mem_cons.mp h
      rw [List.cons_append, firsts]
      split
      · exact .tail _ (ih (by exact_mod_cast hj) hrest)
      · exact ih hk hrest

theorem firsts_subset {bstatus : ℕ → ℕ} {l : List ℕ} {k : ℤ} : firsts bstatus l k ⊆ l := by
  induction l generalizing k with
  | nil => exact List.Subset.refl _
  | cons i l ih =>
      rw [firsts]
      split
      · exact List.cons_subset_cons i ih
      · exact List.subset_cons_of_subset i ih

theorem Identified.exists_first {bstatus : ℕ → ℕ} {nk v : ℕ} (h : Identified miset n bstatus nk)
    (hv : v < n) : ∃ i ∈ firsts bstatus (List.range n) (-1), bstatus i = bstatus v := by
  obtain ⟨i, hi, heq, hlt⟩ := h.first _ (h.lt v hv)
  obtain ⟨m, rfl⟩ := Nat.exists_eq_add_of_lt hi
  have hrange : List.range (i + m + 1) =
      List.range i ++ i :: (List.range m).map fun j => i + 1 + j := by
    rw [show i + m + 1 = i + (1 + m) by omega, List.range_add, List.range_add, List.map_append]
    simp [Nat.add_assoc, Function.comp_def]
  refine ⟨i, ?_, heq⟩
  rw [hrange]
  exact mem_firsts (by omega) fun j hj => heq ▸ hlt j (List.mem_range.mp hj)

end

/-! ## The new nodes -/

section

variable {kstart kend n : ℕ}

/-- Every number has a node, the start and the end have their own, and no two share one. -/
structure NodesCreated (kstart kend n : ℕ) (ngraph : GGraph κ δ) (nnodes : ℕ → ℕ) : Prop where
  links : ngraph.links = []
  lt : ∀ k < n, nnodes k < ngraph.nnodes
  start : ∀ k < n, k = kstart → nnodes k = startnode
  stop : ∀ k < n, k ≠ kstart → k = kend → nnodes k = endnode
  fresh : ∀ k < n, k ≠ kstart → k ≠ kend → 2 ≤ nnodes k
  inj : ∀ k < n, ∀ k' < n, k ≠ kstart → k ≠ kend → nnodes k = nnodes k' → k = k'

/-- Another number, given a node that is not used. -/
theorem NodesCreated.step {g g' : GGraph κ δ} {nnodes : ℕ → ℕ} {node : ℕ}
    (h : NodesCreated kstart kend n g nnodes) (hlinks : g'.links = g.links)
    (hle : g.nnodes ≤ g'.nnodes) (hlt : node < g'.nnodes)
    (hstart : n = kstart → node = startnode) (hstop : n ≠ kstart → n = kend → node = endnode)
    (hfresh : n ≠ kstart → n ≠ kend → g.nnodes ≤ node)
    (hold : n = kstart ∨ n = kend → node < 2) :
    NodesCreated kstart kend (n + 1) g' (Function.update nnodes n node) := by
  have hself : Function.update nnodes n node n = node := Function.update_self ..
  have hother : ∀ {k}, k < n → Function.update nnodes n node k = nnodes k := fun hk =>
    Function.update_of_ne hk.ne ..
  have htwo := g.two_le
  refine ⟨hlinks.trans h.links, fun k hk => ?_, fun k hk => ?_, fun k hk => ?_, fun k hk => ?_,
    fun k hk k' hk' hs he heq => ?_⟩
  · rcases lt_succ_cases hk with rfl | hk
    · exact hself.trans_lt hlt
    · exact (hother hk).trans_lt ((h.lt k hk).trans_le hle)
  · rcases lt_succ_cases hk with rfl | hk
    · exact fun heq => hself.trans (hstart heq)
    · exact fun heq => (hother hk).trans (h.start k hk heq)
  · rcases lt_succ_cases hk with rfl | hk
    · exact fun hne heq => hself.trans (hstop hne heq)
    · exact fun hne heq => (hother hk).trans (h.stop k hk hne heq)
  · rcases lt_succ_cases hk with rfl | hk
    · exact fun hs he => (htwo.trans (hfresh hs he)).trans_eq hself.symm
    · exact fun hs he => (h.fresh k hk hs he).trans_eq (hother hk).symm
  · rcases lt_succ_cases hk with rfl | hk <;> rcases lt_succ_cases hk' with rfl | hk'
    · rfl
    · rw [hself, hother hk'] at heq
      exact absurd heq ((h.lt k' hk').trans_le (hfresh hs he)).ne'
    · rw [hself, hother hk] at heq
      by_cases hn : k' = kstart ∨ k' = kend
      · exact absurd heq ((hold hn).trans_le (h.fresh k hk hs he)).ne'
      · obtain ⟨hs', he'⟩ := not_or.mp hn
        exact absurd heq ((h.lt k hk).trans_le (hfresh hs' he')).ne
    · rw [hother hk, hother hk'] at heq
      exact h.inj k hk k' hk' hs he heq

theorem createNodes_ok (hne : kstart ≠ kend) (n : ℕ) :
    NodesCreated kstart kend n (createNodes (κ := κ) (δ := δ) kstart kend n).1
      (createNodes (κ := κ) (δ := δ) kstart kend n).2 := by
  induction n with
  | zero =>
      have hno : ∀ k : ℕ, ¬k < 0 := Nat.not_lt_zero
      exact ⟨rfl, fun k hk => absurd hk (hno k), fun k hk => absurd hk (hno k),
        fun k hk => absurd hk (hno k), fun k hk => absurd hk (hno k),
        fun k hk => absurd hk (hno k)⟩
  | succ n ih =>
      unfold createNodes
      generalize createNodes (κ := κ) (δ := δ) kstart kend n = r at ih
      obtain ⟨g, nnodes⟩ := r
      have htwo := g.two_le
      dsimp only at ih ⊢
      by_cases hs : n = kstart
      · simp only [hs, if_true]
        subst hs
        exact ih.step rfl le_rfl (Nat.two_pos.trans_le htwo) (fun _ => rfl)
          (fun hne' => absurd rfl hne') (fun hne' => absurd rfl hne') fun _ => Nat.two_pos
      · by_cases he : n = kend
        · simp only [if_neg hs, if_pos he]
          exact ih.step rfl le_rfl (Nat.one_lt_two.trans_le htwo) (fun heq => absurd heq hs)
            (fun _ _ => rfl) (fun _ he' => absurd he he') fun _ => Nat.one_lt_two
        · simp only [if_neg hs, if_neg he]
          exact ih.step rfl (Nat.le_succ _) (Nat.lt_succ_self _) (fun heq => absurd heq hs)
            (fun _ heq => absurd heq he) (fun _ _ => le_rfl) fun h => h.elim (absurd · hs) (absurd · he)

end

/-! ## The new links -/

section

variable {g g' g'' : GGraph κ δ} {P Q : ℕ → ℤ → ℕ → Prop} {u t : ℕ} {x : ℤ}

/-- There is a link between two nodes with a label. -/
def GGraph.HasLink (g : GGraph κ δ) (u : ℕ) (x : ℤ) (t : ℕ) : Prop :=
  ∃ l ∈ g.links, l.upnode = u ∧ l.label = x ∧ l.downnode = t

/-- Links have been added, from where and to where `P` says. -/
structure Adds (g g' : GGraph κ δ) (P : ℕ → ℤ → ℕ → Prop) : Prop where
  nnodes : g'.nnodes = g.nnodes
  links : ∀ u x t, g'.HasLink u x t ↔ g.HasLink u x t ∨ P u x t

theorem Adds.none (g : GGraph κ δ) : Adds g g fun _ _ _ => False := ⟨rfl, by simp⟩

theorem Adds.trans (h : Adds g g' P) (h' : Adds g' g'' Q) :
    Adds g g'' fun u x t => P u x t ∨ Q u x t :=
  ⟨h'.nnodes.trans h.nnodes, fun u x t => by rw [h'.links, h.links, or_assoc]⟩

theorem Adds.congr (h : Adds g g' P) (hiff : ∀ u x t, P u x t ↔ Q u x t) : Adds g g' Q :=
  ⟨h.nnodes, fun u x t => by rw [h.links, hiff]⟩

theorem adds_linkm (cost : κ) (label meaning : ℤ) (data : δ) (hend : u ≠ endnode)
    (hu : u < g.nnodes) (ht : t < g.nnodes) :
    ∃ g', g.linkm u t cost label meaning data = .ok g' ∧
      Adds g g' fun u' x' t' => u' = u ∧ x' = label ∧ t' = t := by
  obtain ⟨g', hlink, hnodes, -, hlinks⟩ := GGraph.linkm_ok cost label meaning data hend hu ht
  refine ⟨g', hlink, hnodes, fun u' x' t' => ?_⟩
  unfold GGraph.HasLink
  rw [hlinks]
  constructor
  · rintro ⟨l, _ | ⟨_, hl⟩, rfl, rfl, rfl⟩
    · exact .inr ⟨rfl, rfl, rfl⟩
    · exact .inl ⟨l, hl, rfl, rfl, rfl⟩
  · rintro (⟨l, hl, hrest⟩ | ⟨rfl, rfl, rfl⟩)
    · exact ⟨l, .tail _ hl, hrest⟩
    · exact ⟨_, List.mem_cons_self, rfl, rfl, rfl⟩

/-- A loop adds what its steps add. -/
theorem adds_foldlM {α : Type} {f : GGraph κ δ → α → Except Fault (GGraph κ δ)} {l : List α}
    {P : α → ℕ → ℤ → ℕ → Prop} {nnodes : ℕ}
    (hstep : ∀ a ∈ l, ∀ g, g.nnodes = nnodes → ∃ g', f g a = .ok g' ∧ Adds g g' (P a))
    (g : GGraph κ δ) (hg : g.nnodes = nnodes) :
    ∃ g', l.foldlM f g = .ok g' ∧ Adds g g' fun u x t => ∃ a ∈ l, P a u x t := by
  induction l generalizing g with
  | nil => exact ⟨g, rfl, (Adds.none g).congr (by simp)⟩
  | cons a l ih =>
      obtain ⟨g₁, heq, h₁⟩ := hstep a List.mem_cons_self g hg
      obtain ⟨g', heq', h'⟩ := ih (fun b hb => hstep b (.tail _ hb)) g₁ (h₁.nnodes.trans hg)
      refine ⟨g', ?_, (h₁.trans h').congr (by simp)⟩
      rw [List.foldlM_cons, heq]
      exact heq'

end

/-! ## The graph before it is copied -/

section

variable {graph ngraph : GGraph κ δ} {miset : ℕ → List ℕ} {bstatus nnodes : ℕ → ℕ} {nk : ℕ}

/-- What the table of the boundaries, the classes and the nodes have in common. -/
structure Prepared (graph : GGraph κ δ) (miset : ℕ → List ℕ) (bstatus : ℕ → ℕ) (nk : ℕ)
    (ngraph : GGraph κ δ) (nnodes : ℕ → ℕ) : Prop where
  sorted : ∀ v, (miset v).Pairwise (· < ·)
  mem : ∀ v < graph.nnodes, ∀ m, m ∈ miset v ↔ InBoundary graph v m
  identified : Identified miset graph.nnodes bstatus nk
  ne : bstatus startnode ≠ bstatus endnode
  created : NodesCreated (bstatus startnode) (bstatus endnode) nk ngraph nnodes

/-- A link that is created, for the node `i`. -/
def IsLink (graph : GGraph κ δ) (miset : ℕ → List ℕ) (bstatus nnodes : ℕ → ℕ) (i u : ℕ) (x : ℤ)
    (t : ℕ) : Prop :=
  u = nnodes (bstatus i) ∧ ∃ m ∈ miset i, ∃ l ∈ graph.downlink m, l.label ≠ labNull ∧
    x = l.label ∧ (t = nnodes (bstatus l.downnode) ∨ t = endnode ∧ endnode ∈ miset l.downnode)

theorem endnode_lt (graph : GGraph κ δ) : endnode < graph.nnodes :=
  Nat.one_lt_two.trans_le graph.two_le

theorem startnode_lt (graph : GGraph κ δ) : startnode < graph.nnodes :=
  Nat.two_pos.trans_le graph.two_le

theorem Prepared.nnodes_lt (h : Prepared graph miset bstatus nk ngraph nnodes) {v : ℕ}
    (hv : v < graph.nnodes) : nnodes (bstatus v) < ngraph.nnodes :=
  h.created.lt _ (h.identified.lt v hv)

theorem Prepared.nnodes_end (h : Prepared graph miset bstatus nk ngraph nnodes) :
    nnodes (bstatus endnode) = endnode :=
  h.created.stop _ (h.identified.lt _ (endnode_lt graph)) h.ne.symm rfl

theorem Prepared.nnodes_start (h : Prepared graph miset bstatus nk ngraph nnodes) :
    nnodes (bstatus startnode) = startnode :=
  h.created.start _ (h.identified.lt _ (startnode_lt graph)) rfl

/-- Nodes that become one have one set. -/
theorem Prepared.miset_eq (h : Prepared graph miset bstatus nk ngraph nnodes) {v w : ℕ}
    (hv : v < graph.nnodes) (hw : w < graph.nnodes)
    (heq : nnodes (bstatus v) = nnodes (bstatus w)) : miset v = miset w := by
  have hvk := h.identified.lt v hv
  have hwk := h.identified.lt w hw
  apply h.identified.eq v hv w hw
  by_cases hvs : bstatus v = bstatus startnode
  · by_cases hws : bstatus w = bstatus startnode
    · rw [hvs, hws]
    · rw [h.created.start _ hvk hvs] at heq
      by_cases hwe : bstatus w = bstatus endnode
      · rw [h.created.stop _ hwk hws hwe] at heq
        cases heq
      · exact absurd heq (Nat.two_pos.trans_le (h.created.fresh _ hwk hws hwe)).ne
  · by_cases hve : bstatus v = bstatus endnode
    · rw [h.created.stop _ hvk hvs hve] at heq
      by_cases hws : bstatus w = bstatus startnode
      · rw [h.created.start _ hwk hws] at heq
        cases heq
      · by_cases hwe : bstatus w = bstatus endnode
        · rw [hve, hwe]
        · exact absurd heq (Nat.one_lt_two.trans_le (h.created.fresh _ hwk hws hwe)).ne
    · exact h.created.inj _ hvk _ hwk hvs hve heq

theorem Prepared.mem_end (h : Prepared graph miset bstatus nk ngraph nnodes) {m : ℕ} :
    m ∈ miset endnode ↔ m = endnode := by
  rw [h.mem _ (endnode_lt graph), inBoundary_iff]
  simp [GGraph.downlink_endnode]

/-- The links of one node. -/
theorem Prepared.boundaryLink_ok (h : Prepared graph miset bstatus nk ngraph nnodes) {i : ℕ}
    (hi : i < graph.nnodes) {m : ℕ} (hm : m ∈ miset i) {l : GLink κ δ} (hl : l ∈ graph.downlink m)
    (g : GGraph κ δ) (hg : g.nnodes = ngraph.nnodes) :
    ∃ g', boundaryLink miset bstatus nnodes (nnodes (bstatus i)) g l = .ok g' ∧
      Adds g g' fun u x t => u = nnodes (bstatus i) ∧ l.label ≠ labNull ∧ x = l.label ∧
        (t = nnodes (bstatus l.downnode) ∨ t = endnode ∧ endnode ∈ miset l.downnode) := by
  obtain ⟨hmem, hup⟩ := GGraph.mem_downlink.mp hl
  have hdown : l.downnode < graph.nnodes := (graph.bounds l hmem).2
  have hne : nnodes (bstatus i) ≠ endnode := by
    intro heq
    rw [h.miset_eq hi (endnode_lt graph) (heq.trans h.nnodes_end.symm), h.mem_end] at hm
    exact graph.terminal l hmem (hup.trans hm)
  unfold boundaryLink
  by_cases hlabel : l.label ≠ labNull
  · rw [if_pos hlabel]
    obtain ⟨g₁, hlink, h₁⟩ := adds_linkm (g := g) l.cost l.label l.meaning l.data hne
      (hg ▸ h.nnodes_lt hi) (hg ▸ h.nnodes_lt hdown)
    simp only [hlink, bind, Except.bind]
    by_cases hend : setCheck (miset l.downnode) endnode ∧ bstatus l.downnode ≠ bstatus endnode
    · rw [if_pos hend]
      have hnodes := h₁.nnodes.trans hg
      obtain ⟨g₂, hlink₂, h₂⟩ := adds_linkm (g := g₁) l.cost l.label l.meaning l.data hne
        (hnodes ▸ h.nnodes_lt hi) (endnode_lt g₁)
      refine ⟨g₂, hlink₂, (h₁.trans h₂).congr fun u x t => ?_⟩
      have hcheck := (setCheck_iff (h.sorted _)).mp hend.1
      tauto
    · rw [if_neg hend]
      refine ⟨g₁, rfl, h₁.congr fun u x t => ?_⟩
      -- the end is only in the boundary if the link leads to the end already
      have hsame : endnode ∈ miset l.downnode → nnodes (bstatus l.downnode) = endnode := by
        intro hmem'
        have heq : bstatus l.downnode = bstatus endnode := by
          by_contra hne'
          exact hend ⟨(setCheck_iff (h.sorted _)).mpr hmem', hne'⟩
        rw [heq, h.nnodes_end]
      constructor
      · rintro ⟨rfl, rfl, rfl⟩
        exact ⟨rfl, hlabel, rfl, .inl rfl⟩
      · rintro ⟨rfl, -, rfl, rfl | ⟨rfl, hmem'⟩⟩
        · exact ⟨rfl, rfl, rfl⟩
        · exact ⟨rfl, rfl, (hsame hmem').symm⟩
  · rw [if_neg hlabel]
    exact ⟨g, rfl, (Adds.none g).congr fun u x t => by tauto⟩

/-- The links of the new graph. -/
theorem Prepared.createLinks_ok (h : Prepared graph miset bstatus nk ngraph nnodes) :
    ∃ g, createLinks graph miset bstatus nnodes ngraph = .ok g ∧ g.nnodes = ngraph.nnodes ∧
      ∀ u x t, g.HasLink u x t ↔ ∃ i < graph.nnodes, IsLink graph miset bstatus nnodes i u x t := by
  have hfirst : ∀ {i}, i ∈ firsts bstatus (List.range graph.nnodes) (-1) → i < graph.nnodes :=
    fun hi => List.mem_range.mp (firsts_subset hi)
  obtain ⟨g, heq, hadds⟩ := adds_foldlM (fun i hi g (hg : g.nnodes = ngraph.nnodes) =>
    adds_foldlM (fun m hm g hg =>
      adds_foldlM (fun l hl g hg => h.boundaryLink_ok (hfirst hi) hm hl g hg) g hg) g hg) ngraph rfl
  refine ⟨g, heq, hadds.nnodes, fun u x t => ?_⟩
  have hnone : ¬ngraph.HasLink u x t := by
    rintro ⟨l, hl, -⟩
    rw [h.created.links] at hl
    cases hl
  rw [hadds.links, or_iff_right hnone]
  constructor
  · rintro ⟨i, hi, m, hm, l, hl, rfl, hlabel, hrest⟩
    exact ⟨i, hfirst hi, rfl, m, hm, l, hl, hlabel, hrest⟩
  · rintro ⟨v, hv, rfl, m, hm, l, hl, hlabel, hrest⟩
    obtain ⟨i, hi, hsame⟩ := h.identified.exists_first hv
    have hset : miset i = miset v := h.identified.eq i (hfirst hi) v hv hsame
    exact ⟨i, hi, m, hset ▸ hm, l, hl, congrArg nnodes hsame.symm, hlabel, hrest⟩

theorem hasLink_iff {g : GGraph κ δ} {u t : ℕ} {a : ℤ} (hclean : ∀ l ∈ g.links, l.label ≠ labNull) :
    g.step u (some a) t ↔ g.HasLink u a t := by
  constructor
  · rintro ⟨l, hl, hread, rfl⟩
    obtain ⟨hmem, rfl⟩ := GGraph.mem_downlink.mp hl
    exact ⟨l, hmem, rfl, (reading_eq_some.mp hread).1, rfl⟩
  · rintro ⟨l, hl, rfl, rfl, rfl⟩
    exact ⟨l, GGraph.mem_downlink.mpr ⟨hl, rfl⟩, reading_eq_some.mpr ⟨rfl, hclean l hl⟩, rfl⟩

/-- The new graph reads the words of the graph. -/
theorem Prepared.eliminates (h : Prepared graph miset bstatus nk ngraph nnodes) {g : GGraph κ δ}
    (hlinks : ∀ u x t, g.HasLink u x t ↔
      ∃ i < graph.nnodes, IsLink graph miset bstatus nnodes i u x t) :
    (∀ l ∈ g.links, l.label ≠ labNull) ∧
      Automata.Eliminates graph.step (Set.Iio graph.nnodes) endnode g.step endnode
        (fun v => nnodes (bstatus v)) := by
  have hclean : ∀ l ∈ g.links, l.label ≠ labNull := by
    intro l hl
    obtain ⟨i, -, -, m, -, l', -, hlabel, heq, -⟩ := (hlinks _ _ _).mp ⟨l, hl, rfl, rfl, rfl⟩
    exact heq ▸ hlabel
  have hend : ∀ {v}, v < graph.nnodes → (endnode ∈ miset v ↔ Nulls graph.step v endnode) := by
    intro v hv
    rw [h.mem v hv]
    exact ⟨fun hb => hb.1, fun hn => ⟨hn, .inl rfl⟩⟩
  refine ⟨hclean, ?_⟩
  exact {
    closed := fun _ hstep => step_downnode_lt hstep
    clean := by
      rintro u t ⟨l, hl, hread, -⟩
      exact hclean l (GGraph.mem_downlink.mp hl).1 (reading_eq_none.mp hread)
    letter := by
      intro v a t hv
      rw [hasLink_iff hclean, hlinks]
      constructor
      · rintro ⟨i, hi, heq, m, hm, l, hl, hlabel, rfl, ht⟩
        rw [← h.miset_eq hv hi heq, h.mem v hv] at hm
        have hdown := (graph.bounds l (GGraph.mem_downlink.mp hl).1).2
        refine ⟨m, l.downnode, hm.1, ⟨l, hl, reading_eq_some.mpr ⟨rfl, hlabel⟩, rfl⟩, ?_⟩
        exact ht.imp_right fun ht => ⟨ht.1, (hend hdown).mp ht.2⟩
      · rintro ⟨m, d, hnulls, ⟨l, hl, hread, rfl⟩, ht⟩
        obtain ⟨rfl, hlabel⟩ := reading_eq_some.mp hread
        have hdown := (graph.bounds l (GGraph.mem_downlink.mp hl).1).2
        have hm : m ∈ miset v := (h.mem v hv m).mpr ⟨hnulls, .inr ⟨l, hl, hlabel⟩⟩
        refine ⟨v, hv, rfl, m, hm, l, hl, hlabel, rfl, ?_⟩
        exact ht.imp_right fun ht => ⟨ht.1, (hend hdown).mpr ht.2⟩
    stop := by
      intro v hv heq
      rw [← hend hv, h.miset_eq hv (endnode_lt graph) (heq.trans h.nnodes_end.symm), h.mem_end]
    last := fun a m => not_step_endnode }

end

/-! ## `gram-cleanup` -/

section

variable {graph : GGraph κ δ}

/-- `gram-cleanup` fails exactly if there is a path of null transitions, and else returns a graph
without null transitions that accepts the same words. -/
def Cleans (graph : GGraph κ δ) : Prop :=
  (graph.NullPath → gramCleanup graph = .error nullPath) ∧
    (¬graph.NullPath → ∃ g, gramCleanup graph = .ok g ∧ (∀ l ∈ g.links, l.label ≠ labNull) ∧
      ∀ x, g.Accepts x ↔ graph.Accepts x)

/-- A graph without null transitions only accepts words with a letter. -/
theorem not_accepts_nil {g : GGraph κ δ} (hclean : ∀ l ∈ g.links, l.label ≠ labNull) :
    ¬g.Accepts [] := by
  rw [accepts_iff, Automata.reads_nil_of_clean]
  · decide
  · rintro v w ⟨l, hl, hread, -⟩
    exact hclean l (GGraph.mem_downlink.mp hl).1 (reading_eq_none.mp hread)

theorem accepts_nil_iff : graph.Accepts [] ↔ graph.NullPath := by
  rw [accepts_iff, Automata.reads_nil, nullPath_iff]

/-- **`gram-cleanup` is right** if null transitions form no cycle. -/
theorem cleans_of_nullAcyclic (graph : GGraph κ δ) (hacyclic : graph.NullAcyclic) :
    Cleans graph := by
  unfold Cleans gramCleanup
  by_cases hclean : ∀ l ∈ graph.links, l.label ≠ labNull
  · simp only [if_pos hclean]
    refine ⟨fun hnull => ?_, fun _ => ⟨graph, rfl, hclean, fun x => Iff.rfl⟩⟩
    exact absurd (accepts_nil_iff.mpr hnull) (not_accepts_nil hclean)
  simp only [if_neg hclean]
  obtain ⟨s, htable, hproper, hdone⟩ := boundaryTable_ok hacyclic
  have hcheck : setCheck (s.miset startnode) endnode = true ↔ graph.NullPath := by
    rw [setCheck_iff (hproper.sorted _), (hdone _ (startnode_lt graph)).mem, nullPath_iff]
    exact ⟨fun hb => hb.1, fun hn => ⟨hn, .inl rfl⟩⟩
  unfold gramCleanupHorse
  simp only [htable, bind, Except.bind]
  constructor
  · exact fun hnull => if_pos (hcheck.mpr hnull)
  intro hnot
  rw [if_neg fun h => hnot (hcheck.mp h)]
  have hidentified := identify_ok s.miset graph.nnodes
  generalize identify s.miset graph.nnodes = r at hidentified
  obtain ⟨bstatus, nk⟩ := r
  dsimp only at hidentified ⊢
  have hne : bstatus startnode ≠ bstatus endnode := by
    intro heq
    have hset := hidentified.eq _ (startnode_lt graph) _ (endnode_lt graph) heq
    refine hnot (hcheck.mp ((setCheck_iff (hproper.sorted _)).mpr ?_))
    rw [hset, (hdone _ (endnode_lt graph)).mem]
    exact ⟨.refl, .inl rfl⟩
  have hcreated := createNodes_ok (κ := κ) (δ := δ) hne nk
  generalize createNodes (bstatus startnode) (bstatus endnode) nk = r at hcreated
  obtain ⟨ngraph, nnodes⟩ := r
  have hprepared : Prepared graph s.miset bstatus nk ngraph nnodes := {
    sorted := hproper.sorted
    mem := fun v hv => (hdone v hv).mem
    identified := hidentified
    ne := hne
    created := hcreated }
  obtain ⟨g, hcreate, -, hlinks⟩ := hprepared.createLinks_ok
  obtain ⟨hcleang, helim⟩ := hprepared.eliminates hlinks
  obtain ⟨mgraph, name, hcopy, hcopied⟩ := gCopy_ok g
    (show startnode ≠ endnode by decide) (show startnode ≠ endnode by decide)
    (startnode_lt GGraph.new) (endnode_lt GGraph.new)
  have hcleanm : ∀ l ∈ mgraph.links, l.label ≠ labNull := by
    intro l' hl'
    rcases hcopied.links l' hl' with hold | ⟨l, hl, -, -, hcopies⟩
    · cases hold
    · exact hcopies.label ▸ hcleang l hl
  refine ⟨mgraph, ?_, hcleanm, fun x => ?_⟩
  · simp only [hcreate]
    exact hcopy
  cases x with
  | nil => exact iff_of_false (not_accepts_nil hcleanm) fun h => hnot (accepts_nil_iff.mp h)
  | cons a x =>
      have hreads := helim.reads (a := a) (x := x) (startnode_lt graph)
      rw [hprepared.nnodes_start] at hreads
      rw [accepts_iff, accepts_iff, hcopied.reads_iff rfl hcopied.start_named, hreads]

/-- From the start, `a` leads to the node 2, and null transitions from there to the end and to the
node itself. -/
def passing : GGraph ℤ Unit where
  nnodes := 3
  nlinks := 3
  links := [⟨2, 2, 2, 0, labNull, labNull, ()⟩, ⟨1, 2, 1, 0, labNull, labNull, ()⟩,
    ⟨0, 0, 2, 0, 97, 97, ()⟩]
  two_le := by decide
  ids := by decide
  sorted := by decide
  bounds := by decide
  terminal := by decide

theorem cleans_passing : Cleans passing := by
  refine cleans_of_nullAcyclic passing (Walks.Acyclic.of_rank (fun v => if v = 1 then 1 else 0) ?_)
  intro v l hl
  have hlinks : ∀ l ∈ passing.links, l.label = labNull → l.downnode ≠ l.upnode →
      (if l.upnode = 1 then 1 else 0) < if l.downnode = 1 then 1 else 0 := by decide
  obtain ⟨hdown, hcond⟩ := List.mem_filter.mp hl
  obtain ⟨hmem, rfl⟩ := GGraph.mem_downlink.mp hdown
  obtain ⟨hnull, hne⟩ := of_decide_eq_true hcond
  exact hlinks l hmem hnull hne

/-- From the start, `a` leads to the node 2, which forms a cycle of null transitions with the node
3; from there, `b` leads to the end. -/
def loop : GGraph ℤ Unit where
  nnodes := 4
  nlinks := 4
  links := [⟨3, 2, 3, 0, labNull, labNull, ()⟩, ⟨2, 3, 2, 0, labNull, labNull, ()⟩,
    ⟨1, 3, 1, 0, 98, 98, ()⟩, ⟨0, 0, 2, 0, 97, 97, ()⟩]
  two_le := by decide
  ids := by decide
  sorted := by decide
  bounds := by decide
  terminal := by decide

theorem not_cleans_loop : ¬Cleans loop := by
  rintro ⟨-, hcleans⟩
  have hempty : (gramCleanup loop).map GGraph.links = .ok [] := by decide +kernel
  have haccepts : loop.Accepts [97, 98] := by
    refine ⟨[⟨0, 0, 2, 0, 97, 97, ()⟩, ⟨3, 2, 3, 0, labNull, labNull, ()⟩,
      ⟨1, 3, 1, 0, 98, 98, ()⟩], ?_, by decide⟩
    exact ⟨by decide, by decide, by decide, rfl⟩
  have hfirst : ∀ l ∈ loop.downlink startnode, l.label ≠ labNull := by decide
  have hnot : ¬loop.NullPath := by
    rintro ⟨_ | ⟨l, p⟩, hp, hnull⟩
    · cases (hp : startnode = endnode)
    · exact hfirst l hp.1 (hnull l List.mem_cons_self)
  obtain ⟨g, heq, -, hsame⟩ := hcleans hnot
  obtain ⟨p, hp, hlabels⟩ := (hsame _).mpr haccepts
  rw [heq] at hempty
  cases p with
  | nil => cases hlabels
  | cons l p =>
      have hmem := (GGraph.mem_downlink.mp hp.1).1
      rw [Except.ok.inj hempty] at hmem
      cases hmem

end

end Lush.Graph
