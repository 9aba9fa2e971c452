import Lush.Graph.Graph
import Lush.Library.Automata

/-!
# Copying a graph

`g-copy` marks the nodes from which the end can be reached, going upwards (`gMarkUp`), and then
copies what it finds from the start between two nodes of another graph (`gCopySub`).

What is copied are all links between nodes that are found and marked (`gCopy_ok`).  Both recursions
end because a node is marked, or given a counterpart, before it is gone on from.
-/

namespace Lush.Graph

/-- A loop that keeps an invariant, which knows the elements that have been seen. -/
theorem foldlM_ok {α σ : Type} {f : σ → α → Except Fault σ} {l : List α}
    (I : List α → σ → Prop) {s : σ} (h0 : I [] s)
    (hstep : ∀ seen s, ∀ a ∈ l, I seen s → ∃ s', f s a = .ok s' ∧ I (a :: seen) s') :
    ∃ s', l.foldlM f s = .ok s' ∧ I l.reverse s' := by
  have hrest : ∀ (rest seen : List α) (s : σ), rest ⊆ l → I seen s →
      ∃ s', rest.foldlM f s = .ok s' ∧ I (rest.reverse ++ seen) s' := by
    intro rest
    induction rest with
    | nil => exact fun seen s _ h => ⟨s, rfl, h⟩
    | cons a rest ih =>
        intro seen s hsub h
        obtain ⟨s₁, heq, h₁⟩ := hstep seen s a (hsub List.mem_cons_self) h
        obtain ⟨s', heq', h'⟩ := ih (a :: seen) s₁ (List.subset_of_cons_subset hsub) h₁
        refine ⟨s', ?_, by simpa using h'⟩
        rw [List.foldlM_cons, heq]
        exact heq'
  simpa using hrest l [] s (List.Subset.refl l) h0

variable {κ δ : Type}

/-! ## The functions -/

/-- `g-mark-up`, with a bound on the depth of the recursion. -/
def gMarkUp (graph : GGraph κ δ) : ℕ → ℕ → (ℕ → Bool) → Except Fault (ℕ → Bool)
  | 0, _, _ => .error .depth
  | fuel + 1, node, nodf =>
      (graph.uplink node).foldlM
        (fun nodf link =>
          if nodf link.upnode then .ok nodf else gMarkUp graph fuel link.upnode nodf)
        (Function.update nodf node true)

/-- The graph that is copied to and `nnodm`. -/
structure Copying (κ δ : Type) where
  ngraph : GGraph κ δ
  nnodm : ℕ → Option ℕ

/-- A copy of a link. -/
def Copying.linkm (s : Copying κ δ) (nnode tnnode : ℕ) (link : GLink κ δ) :
    Except Fault (Copying κ δ) := do
  let ngraph ← s.ngraph.linkm nnode tnnode link.cost link.label link.meaning link.data
  .ok { s with ngraph }

/-- The body of the loop over the links of a node. -/
def copyLink (visit : ℕ → ℕ → Copying κ δ → Except Fault (Copying κ δ)) (nodf : ℕ → Bool)
    (nnode : ℕ) (s : Copying κ δ) (link : GLink κ δ) : Except Fault (Copying κ δ) :=
  let tnode := link.downnode
  match s.nnodm tnode with
  | some tnnode => s.linkm nnode tnnode link
  | none =>
      if nodf tnode then do
        let (tnnode, ngraph) := s.ngraph.newnode
        let s ← visit tnode tnnode
          { ngraph, nnodm := Function.update s.nnodm tnode (some tnnode) }
        s.linkm nnode tnnode link
      else .ok s

/-- `g-copy-sub`, with a bound on the depth of the recursion. -/
def gCopySub (graph : GGraph κ δ) (nodf : ℕ → Bool) :
    ℕ → ℕ → ℕ → Copying κ δ → Except Fault (Copying κ δ)
  | 0, _, _, _ => .error .depth
  | fuel + 1, node, nnode, s =>
      (graph.downlink node).foldlM (copyLink (gCopySub graph nodf fuel) nodf nnode) s

/-- `g-copy`. -/
def gCopy (graph ngraph : GGraph κ δ) (nstart nend : ℕ) : Except Fault (GGraph κ δ) := do
  let nodf ← gMarkUp graph (graph.nnodes + 1) GGraph.endnode fun _ => false
  let nnodm := Function.update (Function.update (fun _ => none) GGraph.startnode (some nstart))
    GGraph.endnode (some nend)
  let s ← gCopySub graph nodf (graph.nnodes + 1) GGraph.startnode nstart { ngraph, nnodm }
  .ok s.ngraph

/-! ## Marks -/

section

variable {graph : GGraph κ δ} {nodf nodf' nodf'' : ℕ → Bool} {v w : ℕ}

/-- A node leads to another one. -/
def GGraph.Leads (graph : GGraph κ δ) (v w : ℕ) : Prop :=
  Walks.Leads graph.downlink GLink.downnode v w

/-- What going upwards from a node leaves: the marks that are new are on nodes that lead there, and
the nodes above these are marked. -/
structure Marked (graph : GGraph κ δ) (v : ℕ) (nodf nodf' : ℕ → Bool) : Prop where
  mono : ∀ w, nodf w = true → nodf' w = true
  leads : ∀ w, nodf' w = true → nodf w = false → graph.Leads w v
  closed : ∀ l ∈ graph.links, nodf' l.downnode = true → nodf l.downnode = false →
    nodf' l.upnode = true

/-- The nodes that are not marked. -/
def unmarked (graph : GGraph κ δ) (nodf : ℕ → Bool) : Set ℕ :=
  {w | w < graph.nnodes ∧ nodf w = false}

theorem unmarked_finite : (unmarked graph nodf).Finite :=
  (Set.finite_Iio graph.nnodes).subset fun _ hw => hw.1

theorem ncard_unmarked_mono (h : ∀ w, nodf w = true → nodf' w = true) :
    (unmarked graph nodf').ncard ≤ (unmarked graph nodf).ncard := by
  refine Set.ncard_le_ncard (fun w hw => ⟨hw.1, ?_⟩) unmarked_finite
  by_contra htrue
  exact absurd ((h w (eq_true_of_ne_false htrue)).symm.trans hw.2) (by decide)

theorem ncard_unmarked_update_lt (hv : v < graph.nnodes) (hnot : nodf v = false) :
    (unmarked graph (Function.update nodf v true)).ncard < (unmarked graph nodf).ncard := by
  refine Set.ncard_lt_ncard (Set.ssubset_iff_of_subset ?_ |>.mpr ⟨v, ⟨hv, hnot⟩, ?_⟩)
    unmarked_finite
  · rintro w ⟨hw, hfalse⟩
    have hne : w ≠ v := by
      rintro rfl
      rw [Function.update_self] at hfalse
      cases hfalse
    exact ⟨hw, (Function.update_of_ne hne ..).symm.trans hfalse⟩
  · rintro ⟨-, hfalse⟩
    rw [Function.update_self] at hfalse
    cases hfalse

/-- Going upwards from a node that is not marked. -/
theorem gMarkUp_ok {fuel : ℕ} (hv : v < graph.nnodes) (hnot : nodf v = false)
    (hfuel : (unmarked graph nodf).ncard ≤ fuel) :
    ∃ nodf', gMarkUp graph fuel v nodf = .ok nodf' ∧ Marked graph v nodf nodf' ∧
      nodf' v = true := by
  induction fuel generalizing v nodf with
  | zero =>
      have hlt := ncard_unmarked_update_lt hv hnot
      omega
  | succ fuel ih =>
      have hlt := ncard_unmarked_update_lt hv hnot
      set nodf₀ := Function.update nodf v true with hnodf₀
      have hself : nodf₀ v = true := Function.update_self ..
      have hother : ∀ {w}, w ≠ v → nodf₀ w = nodf w := fun hne => Function.update_of_ne hne ..
      have hmono₀ : ∀ w, nodf w = true → nodf₀ w = true := by
        intro w hw
        by_cases heq : w = v
        · exact heq ▸ hself
        · exact (hother heq).trans hw
      let I : List (GLink κ δ) → (ℕ → Bool) → Prop := fun seen nodf₁ =>
        (∀ w, nodf₀ w = true → nodf₁ w = true) ∧
        (∀ w, nodf₁ w = true → nodf w = false → graph.Leads w v) ∧
        (∀ l ∈ graph.links, nodf₁ l.downnode = true → nodf₀ l.downnode = false →
          nodf₁ l.upnode = true) ∧
        ∀ l ∈ seen, nodf₁ l.upnode = true
      have h0 : I [] nodf₀ := by
        refine ⟨fun w hw => hw, fun w hw hfalse => ?_, fun l _ h h' => ?_, fun l hl => ?_⟩
        · by_cases heq : w = v
          · exact heq ▸ Walks.leads_self v
          · rw [hother heq, hfalse] at hw
            cases hw
        · rw [h] at h'
          cases h'
        · cases hl
      obtain ⟨nodf', hloop, hmono, hleads, hclosed, hseen⟩ :=
        foldlM_ok (f := fun nodf link =>
          if nodf link.upnode then .ok nodf else gMarkUp graph fuel link.upnode nodf) I h0 (by
          intro seen nodf₁ l hl ⟨hmono, hleads, hclosed, hseen⟩
          obtain ⟨hmem, hdown⟩ := GGraph.mem_uplink.mp hl
          by_cases hup : nodf₁ l.upnode = true
          · exact ⟨nodf₁, if_pos hup, hmono, hleads, hclosed, List.forall_mem_cons.mpr ⟨hup, hseen⟩⟩
          obtain ⟨nodf₂, heq, hmarked, hup₂⟩ := ih (graph.bounds l hmem).1 (eq_false_of_ne_true hup)
            ((ncard_unmarked_mono hmono).trans (by omega))
          refine ⟨nodf₂, (if_neg hup).trans heq, fun w hw => hmarked.mono w (hmono w hw),
            fun w hw hfalse => ?_, fun l' hl' h h' => ?_, ?_⟩
          · by_cases hw₁ : nodf₁ w = true
            · exact hleads w hw₁ hfalse
            · obtain ⟨p, hp⟩ := hmarked.leads w hw (eq_false_of_ne_true hw₁)
              refine ⟨p ++ [l], Walks.walk_append.mpr ⟨l.upnode, hp, ?_, hdown⟩⟩
              exact GGraph.mem_downlink.mpr ⟨hmem, rfl⟩
          · by_cases h₁ : nodf₁ l'.downnode = true
            · exact hmarked.mono _ (hclosed l' hl' h₁ h')
            · exact hmarked.closed l' hl' h (eq_false_of_ne_true h₁)
          · exact List.forall_mem_cons.mpr ⟨hup₂, fun l' hl' => hmarked.mono _ (hseen l' hl')⟩)
      refine ⟨nodf', hloop, ⟨fun w hw => hmono w (hmono₀ w hw), hleads, fun l hl h hfalse => ?_⟩,
        hmono v hself⟩
      by_cases hdown : l.downnode = v
      · exact hseen l (List.mem_reverse.mpr (GGraph.mem_uplink.mpr ⟨hl, hdown⟩))
      · exact hclosed l hl h ((hother hdown).trans hfalse)

/-- `g-mark-up` from the end marks the nodes that lead there. -/
theorem gMarkUp_end (graph : GGraph κ δ) :
    ∃ nodf, gMarkUp graph (graph.nnodes + 1) GGraph.endnode (fun _ => false) = .ok nodf ∧
      ∀ w, nodf w = true ↔ graph.Leads w GGraph.endnode := by
  have hend : GGraph.endnode < graph.nnodes := Nat.one_lt_two.trans_le graph.two_le
  have hfuel : (unmarked graph fun _ => false).ncard ≤ graph.nnodes + 1 := by
    have hle : (unmarked graph fun _ => false).ncard ≤ (Set.Iio graph.nnodes).ncard :=
      Set.ncard_le_ncard (fun w hw => hw.1) (Set.finite_Iio _)
    rw [← Finset.coe_range, Set.ncard_coe_finset, Finset.card_range] at hle
    omega
  have hnot : (fun _ => false : ℕ → Bool) GGraph.endnode = false := rfl
  obtain ⟨nodf, heq, hmarked, hself⟩ := gMarkUp_ok hend hnot hfuel
  refine ⟨nodf, heq, fun w => ⟨fun hw => hmarked.leads w hw rfl, ?_⟩⟩
  rintro ⟨p, hp⟩
  induction p generalizing w with
  | nil =>
      obtain rfl : w = GGraph.endnode := hp
      exact hself
  | cons l p ih =>
      obtain ⟨hmem, rfl⟩ := GGraph.mem_downlink.mp hp.1
      exact hmarked.closed l hmem (ih _ hp.2) rfl

end

/-! ## Copies -/

section

variable {graph ngraph : GGraph κ δ} {nodf : ℕ → Bool} {nstart nend v a b : ℕ}
  {s s' s'' : Copying κ δ} {l : GLink κ δ}

/-- A link has a copy. -/
def Copying.Has (s : Copying κ δ) (l : GLink κ δ) : Prop :=
  ∃ l' ∈ s.ngraph.links, s.nnodm l.upnode = some l'.upnode ∧
    s.nnodm l.downnode = some l'.downnode ∧ l.Copies l'

/-- What holds while a graph is copied to the graph `ngraph`. -/
structure CopyInv (graph ngraph : GGraph κ δ) (nodf : ℕ → Bool) (nstart nend : ℕ)
    (s : Copying κ δ) : Prop where
  named : ∀ {v w n}, s.nnodm v = some n → s.nnodm w = some n → v = w
  bound : ∀ {v n}, s.nnodm v = some n → n < s.ngraph.nnodes
  start_named : s.nnodm GGraph.startnode = some nstart
  stop_named : s.nnodm GGraph.endnode = some nend
  fresh : ∀ {v n}, s.nnodm v = some n → v = GGraph.startnode ∨ v = GGraph.endnode ∨
    ngraph.nnodes ≤ n ∧ nodf v = true
  nodes : ngraph.nnodes ≤ s.ngraph.nnodes
  old : ∀ l ∈ ngraph.links, l ∈ s.ngraph.links
  links : ∀ l' ∈ s.ngraph.links, l' ∈ ngraph.links ∨ ∃ l ∈ graph.links,
    s.nnodm l.upnode = some l'.upnode ∧ s.nnodm l.downnode = some l'.downnode ∧ l.Copies l'

/-- What copying from a node leaves: the nodes that are named now have all their links to marked
nodes. -/
structure CopyExtends (graph : GGraph κ δ) (nodf : ℕ → Bool) (s s' : Copying κ δ) : Prop where
  names : ∀ {v n}, s.nnodm v = some n → s'.nnodm v = some n
  links : ∀ l ∈ s.ngraph.links, l ∈ s'.ngraph.links
  complete : ∀ l ∈ graph.links, s.nnodm l.upnode = none → s'.nnodm l.upnode ≠ none →
    nodf l.downnode = true → s'.Has l

theorem CopyExtends.has (h : CopyExtends graph nodf s s') (hl : s.Has l) : s'.Has l := by
  obtain ⟨l', hmem, hup, hdown, hcopy⟩ := hl
  exact ⟨l', h.links l' hmem, h.names hup, h.names hdown, hcopy⟩

theorem CopyExtends.refl (s : Copying κ δ) : CopyExtends graph nodf s s :=
  ⟨id, fun _ hl => hl, fun _ _ hnone hsome => absurd hnone hsome⟩

theorem CopyExtends.trans (h : CopyExtends graph nodf s s') (h' : CopyExtends graph nodf s' s'') :
    CopyExtends graph nodf s s'' where
  names hv := h'.names (h.names hv)
  links l hl := h'.links l (h.links l hl)
  complete l hl hnone hsome hmark := by
    by_cases hmid : s'.nnodm l.upnode = none
    · exact h'.complete l hl hmid hsome hmark
    · exact h'.has (h.complete l hl hnone hmid hmark)

/-- A link between two nodes that are named is copied. -/
theorem CopyInv.linkm (h : CopyInv graph ngraph nodf nstart nend s) (hl : l ∈ graph.links)
    (hup : s.nnodm l.upnode = some a) (hdown : s.nnodm l.downnode = some b)
    (hend : a ≠ GGraph.endnode) :
    ∃ s', s.linkm a b l = .ok s' ∧ CopyInv graph ngraph nodf nstart nend s' ∧
      CopyExtends graph nodf s s' ∧ s'.Has l := by
  obtain ⟨g, hlink, hnodes, -, hlinks⟩ :=
    GGraph.linkm_ok l.cost l.label l.meaning l.data hend (h.bound hup) (h.bound hdown)
  refine ⟨{ s with ngraph := g }, ?_, ?_, ?_, ?_⟩
  · simp only [Copying.linkm, hlink, bind, Except.bind]
  · exact {
      h with
      bound := fun hv => hnodes ▸ h.bound hv
      nodes := hnodes ▸ h.nodes
      old := fun l' hl' => hlinks ▸ .tail _ (h.old l' hl')
      links := by
        intro l' hl'
        rw [hlinks] at hl'
        rcases hl' with _ | ⟨_, hl'⟩
        · exact .inr ⟨l, hl, hup, hdown, rfl, rfl, rfl, rfl⟩
        · exact h.links l' hl' }
  · exact ⟨id, fun l' hl' => hlinks ▸ .tail _ hl', fun _ _ hnone hsome => absurd hnone hsome⟩
  · exact ⟨⟨s.ngraph.nlinks, a, b, l.cost, l.label, l.meaning, l.data⟩,
      hlinks ▸ List.mem_cons_self, hup, hdown, rfl, rfl, rfl, rfl⟩

/-- The state in which a node has been created for a node that had none. -/
def Copying.create (s : Copying κ δ) (v : ℕ) : Copying κ δ :=
  { ngraph := s.ngraph.newnode.2, nnodm := Function.update s.nnodm v (some s.ngraph.nnodes) }

theorem create_nnodm_self : (s.create v).nnodm v = some s.ngraph.nnodes := Function.update_self ..

theorem create_nnodm_of_ne {w : ℕ} (h : w ≠ v) : (s.create v).nnodm w = s.nnodm w :=
  Function.update_of_ne h ..

theorem create_names {w n : ℕ} (hv : s.nnodm v = none) (hw : s.nnodm w = some n) :
    (s.create v).nnodm w = some n := by
  have hne : w ≠ v := by
    rintro rfl
    cases hv.symm.trans hw
  exact (create_nnodm_of_ne hne).trans hw

theorem CopyInv.create (h : CopyInv graph ngraph nodf nstart nend s) (hv : s.nnodm v = none)
    (hmark : nodf v = true) : CopyInv graph ngraph nodf nstart nend (s.create v) where
  named := by
    intro u w n hu hw
    by_cases huv : u = v <;> by_cases hwv : w = v
    · rw [huv, hwv]
    · rw [huv, create_nnodm_self] at hu
      rw [create_nnodm_of_ne hwv, ← Option.some.inj hu] at hw
      exact absurd (h.bound hw) (lt_irrefl _)
    · rw [hwv, create_nnodm_self] at hw
      rw [create_nnodm_of_ne huv, ← Option.some.inj hw] at hu
      exact absurd (h.bound hu) (lt_irrefl _)
    · rw [create_nnodm_of_ne huv] at hu
      rw [create_nnodm_of_ne hwv] at hw
      exact h.named hu hw
  bound := by
    intro w n hw
    by_cases hwv : w = v
    · rw [hwv, create_nnodm_self] at hw
      rw [← Option.some.inj hw]
      exact Nat.lt_succ_self _
    · rw [create_nnodm_of_ne hwv] at hw
      exact (h.bound hw).trans (Nat.lt_succ_self _)
  start_named := create_names hv h.start_named
  stop_named := create_names hv h.stop_named
  fresh := by
    intro w n hw
    by_cases hwv : w = v
    · rw [hwv, create_nnodm_self] at hw
      rw [← Option.some.inj hw, hwv]
      exact .inr (.inr ⟨h.nodes, hmark⟩)
    · rw [create_nnodm_of_ne hwv] at hw
      exact h.fresh hw
  nodes := h.nodes.trans (Nat.le_succ _)
  old := h.old
  links := by
    intro l' hl'
    rcases h.links l' hl' with hold | ⟨l, hl, hup, hdown, hcopy⟩
    · exact .inl hold
    · exact .inr ⟨l, hl, create_names hv hup, create_names hv hdown, hcopy⟩

/-- The nodes that are not named. -/
def unnamed (graph : GGraph κ δ) (s : Copying κ δ) : Set ℕ :=
  {w | w < graph.nnodes ∧ s.nnodm w = none}

theorem unnamed_finite : (unnamed graph s).Finite :=
  (Set.finite_Iio graph.nnodes).subset fun _ hw => hw.1

theorem CopyExtends.ncard_le (h : CopyExtends graph nodf s s') :
    (unnamed graph s').ncard ≤ (unnamed graph s).ncard := by
  refine Set.ncard_le_ncard (fun w hw => ⟨hw.1, ?_⟩) unnamed_finite
  by_contra hne
  obtain ⟨n, hn⟩ := Option.ne_none_iff_exists'.mp hne
  cases hw.2.symm.trans (h.names hn)

theorem ncard_create_lt (hvn : v < graph.nnodes) (hv : s.nnodm v = none) :
    (unnamed graph (s.create v)).ncard < (unnamed graph s).ncard := by
  refine Set.ncard_lt_ncard (Set.ssubset_iff_of_subset ?_ |>.mpr ⟨v, ⟨hvn, hv⟩, ?_⟩) unnamed_finite
  · rintro w ⟨hw, hnone⟩
    have hne : w ≠ v := by
      rintro rfl
      cases create_nnodm_self.symm.trans hnone
    exact ⟨hw, (create_nnodm_of_ne hne).symm.trans hnone⟩
  · rintro ⟨-, hnone⟩
    cases create_nnodm_self.symm.trans hnone

/-- Copying from a node that is named. -/
theorem gCopySub_ok {fuel nnode : ℕ} (hstart : nstart ≠ GGraph.endnode)
    (hngraph : 2 ≤ ngraph.nnodes) (hv : s.nnodm v = some nnode) (hend : v ≠ GGraph.endnode)
    (h : CopyInv graph ngraph nodf nstart nend s) (hfuel : (unnamed graph s).ncard < fuel) :
    ∃ s', gCopySub graph nodf fuel v nnode s = .ok s' ∧
      CopyInv graph ngraph nodf nstart nend s' ∧ CopyExtends graph nodf s s' ∧
      ∀ l ∈ graph.links, l.upnode = v → nodf l.downnode = true → s'.Has l := by
  induction fuel generalizing v nnode s with
  | zero => exact absurd hfuel (Nat.not_lt_zero _)
  | succ fuel ih =>
      have hnnode : nnode ≠ GGraph.endnode := by
        rcases h.fresh hv with rfl | heq | ⟨hle, -⟩
        · rw [Option.some.inj (hv.symm.trans h.start_named)]
          exact hstart
        · exact absurd heq hend
        · exact (Nat.one_lt_two.trans_le (hngraph.trans hle)).ne'
      let I : List (GLink κ δ) → Copying κ δ → Prop := fun seen s₁ =>
        CopyInv graph ngraph nodf nstart nend s₁ ∧ CopyExtends graph nodf s s₁ ∧
          ∀ l ∈ seen, nodf l.downnode = true → s₁.Has l
      have h0 : I [] s := ⟨h, CopyExtends.refl s, fun l hl => by cases hl⟩
      have hstep : ∀ seen s₁, ∀ l ∈ graph.downlink v, I seen s₁ →
          ∃ s₂, copyLink (gCopySub graph nodf fuel) nodf nnode s₁ l = .ok s₂ ∧
            I (l :: seen) s₂ := by
        intro seen s₁ l hl ⟨h₁, hext, hseen⟩
        obtain ⟨hmem, rfl⟩ := GGraph.mem_downlink.mp hl
        cases hname : s₁.nnodm l.downnode with
        | some tnnode =>
            obtain ⟨s₂, hlink, h₂, hext₂, hhas⟩ :=
              h₁.linkm hmem (hext.names hv) hname hnnode
            refine ⟨s₂, ?_, h₂, hext.trans hext₂, List.forall_mem_cons.mpr ⟨fun _ => hhas, ?_⟩⟩
            · simp only [copyLink, hname]
              exact hlink
            · exact fun l' hl' hmark => hext₂.has (hseen l' hl' hmark)
        | none =>
            by_cases hmark : nodf l.downnode = true
            · have hcreated := h₁.create hname hmark
              have hextc : ∀ {w n}, s₁.nnodm w = some n → (s₁.create l.downnode).nnodm w = some n :=
                create_names hname
              have hlt := ncard_create_lt (graph.bounds l hmem).2 hname
              have hne : l.downnode ≠ GGraph.endnode := by
                intro heq
                cases hname.symm.trans (heq ▸ h₁.stop_named)
              obtain ⟨s₂, hvisit, h₂, hext₂, hdone⟩ := ih create_nnodm_self hne hcreated
                (hlt.trans_le (hext.ncard_le.trans (Nat.lt_succ_iff.mp hfuel)))
              obtain ⟨s₃, hlink, h₃, hext₃, hhas⟩ := h₂.linkm hmem
                (hext₂.names (hextc (hext.names hv))) (hext₂.names create_nnodm_self) hnnode
              have hmid : CopyExtends graph nodf s₁ s₂ := {
                names := fun hw => hext₂.names (hextc hw)
                links := fun l' hl' => hext₂.links l' hl'
                complete := by
                  intro l' hl' hnone hsome hmark'
                  by_cases heq : l'.upnode = l.downnode
                  · exact hdone l' hl' heq hmark'
                  · exact hext₂.complete l' hl' ((create_nnodm_of_ne heq).trans hnone) hsome hmark' }
              have hext' := hmid.trans hext₃
              refine ⟨s₃, ?_, h₃, hext.trans hext', List.forall_mem_cons.mpr ⟨fun _ => hhas, ?_⟩⟩
              · have hvisit' : gCopySub graph nodf fuel l.downnode s₁.ngraph.newnode.1
                    { ngraph := s₁.ngraph.newnode.2
                      nnodm := Function.update s₁.nnodm l.downnode
                        (some s₁.ngraph.newnode.1) } = .ok s₂ := hvisit
                simp only [copyLink, hname, hmark, if_true, bind, Except.bind, hvisit']
                exact hlink
              · exact fun l' hl' hmark' => hext'.has (hseen l' hl' hmark')
            · refine ⟨s₁, ?_, h₁, hext, List.forall_mem_cons.mpr ⟨fun h => absurd h hmark, hseen⟩⟩
              simp only [copyLink, hname, hmark]
              rfl
      obtain ⟨s', hloop, h', hext, hseen⟩ := foldlM_ok I h0 hstep
      refine ⟨s', hloop, h', hext, fun l hl hup hmark => hseen l ?_ hmark⟩
      exact List.mem_reverse.mpr (GGraph.mem_downlink.mpr ⟨hl, hup⟩)

/-- A graph has been copied between two nodes of another one. -/
structure Copied (graph ngraph : GGraph κ δ) (nstart nend : ℕ) (g : GGraph κ δ)
    (name : ℕ → Option ℕ) : Prop where
  named : ∀ {v w n}, name v = some n → name w = some n → v = w
  bound : ∀ {v n}, name v = some n → n < g.nnodes
  start_named : name GGraph.startnode = some nstart
  stop_named : name GGraph.endnode = some nend
  fresh : ∀ {v n}, name v = some n → v = GGraph.startnode ∨ v = GGraph.endnode ∨
    ngraph.nnodes ≤ n ∧ graph.Leads v GGraph.endnode
  nodes : ngraph.nnodes ≤ g.nnodes
  old : ∀ l ∈ ngraph.links, l ∈ g.links
  links : ∀ l' ∈ g.links, l' ∈ ngraph.links ∨ ∃ l ∈ graph.links,
    name l.upnode = some l'.upnode ∧ name l.downnode = some l'.downnode ∧ l.Copies l'
  complete : ∀ l ∈ graph.links, name l.upnode ≠ none → graph.Leads l.downnode GGraph.endnode →
    ∃ l' ∈ g.links, name l.upnode = some l'.upnode ∧ name l.downnode = some l'.downnode ∧
      l.Copies l'

/-- **`g-copy` copies** what leads from the start to the end. -/
theorem gCopy_ok (graph : GGraph κ δ) (hstart : nstart ≠ GGraph.endnode) (hne : nstart ≠ nend)
    (hs : nstart < ngraph.nnodes) (he : nend < ngraph.nnodes) :
    ∃ g name, gCopy graph ngraph nstart nend = .ok g ∧
      Copied graph ngraph nstart nend g name := by
  obtain ⟨nodf, hmark, hnodf⟩ := gMarkUp_end graph
  let nnodm : ℕ → Option ℕ := Function.update
    (Function.update (fun _ => none) GGraph.startnode (some nstart)) GGraph.endnode (some nend)
  have hnames : ∀ {v n}, nnodm v = some n →
      (v = GGraph.endnode ∧ n = nend) ∨ (v = GGraph.startnode ∧ n = nstart) := by
    intro v n hv
    simp only [nnodm, Function.update_apply] at hv
    split at hv
    case isTrue heq => exact .inl ⟨heq, (Option.some.inj hv).symm⟩
    case isFalse =>
      split at hv
      case isTrue heq => exact .inr ⟨heq, (Option.some.inj hv).symm⟩
      case isFalse => cases hv
  have hinit : CopyInv graph ngraph nodf nstart nend { ngraph, nnodm } := {
    named := by
      intro v w n hv hw
      rcases hnames hv with ⟨rfl, rfl⟩ | ⟨rfl, rfl⟩ <;>
        rcases hnames hw with ⟨rfl, heq⟩ | ⟨rfl, heq⟩
      · rfl
      · exact absurd heq.symm hne
      · exact absurd heq hne
      · rfl
    bound := by
      intro v n hv
      rcases hnames hv with ⟨-, rfl⟩ | ⟨-, rfl⟩
      · exact he
      · exact hs
    start_named := rfl
    stop_named := rfl
    fresh := fun hv => (hnames hv).elim (fun h => .inr (.inl h.1)) fun h => .inl h.1
    nodes := le_rfl
    old := fun l hl => hl
    links := fun l hl => .inl hl }
  have hfuel : (unnamed graph { ngraph, nnodm }).ncard < graph.nnodes + 1 := by
    have hle : (unnamed graph { ngraph, nnodm }).ncard ≤ (Set.Iio graph.nnodes).ncard :=
      Set.ncard_le_ncard (fun w hw => hw.1) (Set.finite_Iio _)
    rw [← Finset.coe_range, Set.ncard_coe_finset, Finset.card_range] at hle
    omega
  obtain ⟨s, hcopy, h, hext, hdone⟩ := gCopySub_ok hstart ngraph.two_le hinit.start_named
    (by decide) hinit hfuel
  refine ⟨s.ngraph, s.nnodm, ?_, ?_⟩
  · simp only [gCopy, hmark, bind, Except.bind]
    rw [show gCopySub graph nodf _ GGraph.startnode nstart _ = .ok s from hcopy]
  · exact {
      named := h.named
      bound := h.bound
      start_named := h.start_named
      stop_named := h.stop_named
      fresh := fun hv => by
        rw [← hnodf]
        exact h.fresh hv
      nodes := h.nodes
      old := h.old
      links := h.links
      complete := by
        intro l hl hname hleads
        have hm := (hnodf _).mpr hleads
        by_cases hstart : l.upnode = GGraph.startnode
        · exact hdone l hl hstart hm
        · refine hext.complete l hl ?_ hname hm
          by_contra hne
          obtain ⟨n, hn⟩ := Option.ne_none_iff_exists'.mp hne
          rcases hnames hn with ⟨hend, -⟩ | ⟨hs, -⟩
          · exact graph.terminal l hl hend
          · exact hstart hs }

end

end Lush.Graph
