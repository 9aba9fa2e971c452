import Lush.Graph.Product
import Lush.Graph.Viterbi

/-!
# Viterbi is optimal

For a graph without cycles.  Some nodes are done while others are still being looked at: a node that
is done has the best of the costs that its links offer, and the nodes they come from are done
(`Searched`).  Looking at a node keeps this (`viterbiSub_ok`), by induction on the number of nodes
above it.  From that, the cost of a node that is done is at most that of every way to it
(`Searched.le_cost`), and a finite cost is that of the way along the links that are kept
(`retrace_ok`).

The composed lattice has the walks of the composed graph, so both searches find the same cost.
-/

namespace Lush.Graph

open Walks (Walk Leads Acyclic)

variable {κ δ ν ε : Type} {L : Lattice κ δ ν ε} {start stop : ν}

/-- The number of nodes above a node, with itself. -/
noncomputable def Lattice.height (L : Lattice κ δ ν ε) (v : ν) : ℕ :=
  {w | Leads L.into L.src v w}.ncard

/-- What looking at a node leaves as it was. -/
structure Keeps (L : Lattice κ δ ν ε) (v : ν) (done done' : Set ν) (s s' : Pass κ ν ε) :
    Prop where
  subset : done ⊆ done'
  lower : ∀ w ∈ done', w ∈ done ∨ L.height w ≤ L.height v
  acost : ∀ w ∈ done, s'.acost w = s.acost w
  mono : ∀ w, s.ndflag w = true → s'.ndflag w = true
  flagged : ∀ w, s'.ndflag w = true → w ∈ done' ∨ s.ndflag w = true

section

variable {s s' s'' : Pass κ ν ε} {done done' done'' : Set ν} {u v : ν}

theorem Keeps.refl (v : ν) (done : Set ν) (s : Pass κ ν ε) : Keeps L v done done s s :=
  ⟨subset_rfl, fun _ hw => .inl hw, fun _ _ => rfl, fun _ h => h, fun _ h => .inr h⟩

theorem Keeps.trans (h : Keeps L v done done' s s') (h' : Keeps L v done' done'' s' s'') :
    Keeps L v done done'' s s'' where
  subset := h.subset.trans h'.subset
  lower w hw := (h'.lower w hw).elim (h.lower w) .inr
  acost w hw := (h'.acost w (h.subset hw)).trans (h.acost w hw)
  mono w hw := h'.mono w (h.mono w hw)
  flagged w hw := (h'.flagged w hw).elim .inl fun hw' => (h.flagged w hw').imp_left fun hd =>
    h'.subset hd

theorem Keeps.of_height_le (h : Keeps L u done done' s s') (hle : L.height u ≤ L.height v) :
    Keeps L v done done' s s' :=
  { h with lower := fun w hw => (h.lower w hw).imp_right fun hheight => hheight.trans hle }

end

variable [AddCommMonoid κ] [LinearOrder κ]

/-- The edges that lead to a node are those that end there, and costs are added. -/
structure Lattice.Lawful (L : Lattice κ δ ν ε) : Prop where
  into : ∀ v e, e ∈ L.into v ↔ e ∈ L.out (L.src e) ∧ L.dst e = v
  src : ∀ v e, e ∈ L.out v → L.src e = v
  upcost : ∀ c e, L.upcost c e = c + L.cost e

/-- A cost and a link are the best of some edges. -/
structure Best (L : Lattice κ δ ν ε) (s : Pass κ ν ε) (edges : List ε) (mincost : WithTop κ)
    (minlink : Option ε) : Prop where
  le : ∀ e ∈ edges, mincost ≤ s.acost (L.src e) + L.cost e
  unreached : minlink = none → mincost = ⊤
  along : ∀ e, minlink = some e →
    e ∈ edges ∧ mincost = s.acost (L.src e) + L.cost e ∧ mincost < ⊤

/-- What holds of the nodes that are done. -/
structure Searched (L : Lattice κ δ ν ε) (start : ν) (done : Set ν) (s : Pass κ ν ε) : Prop where
  flagged : ∀ v ∈ done, s.ndflag v = true
  start_done : start ∈ done
  start_acost : s.acost start = 0
  start_path : s.path start = none
  best : ∀ v ∈ done, v ≠ start → Best L s (L.into v) (s.acost v) (s.path v)
  into : ∀ v ∈ done, v ≠ start → ∀ e ∈ L.into v, L.src e ∈ done

section

variable {s s' : Pass κ ν ε} {edges : List ε} {mincost : WithTop κ} {minlink : Option ε}

theorem Best.congr (h : Best L s edges mincost minlink)
    (hacost : ∀ e ∈ edges, s'.acost (L.src e) = s.acost (L.src e)) :
    Best L s' edges mincost minlink where
  le e he := by
    rw [hacost e he]
    exact h.le e he
  unreached := h.unreached
  along e he := by
    obtain ⟨hmem, hcost, hlt⟩ := h.along e he
    rw [hacost e hmem]
    exact ⟨hmem, hcost, hlt⟩

theorem best_nil : Best L s [] ⊤ none :=
  ⟨fun _ he => (List.not_mem_nil he).elim, fun _ => rfl, fun _ he => by cases he⟩

/-- An edge that is better is taken. -/
theorem Best.cons_lt (h : Best L s edges mincost minlink) {e : ε}
    (hlt : s.acost (L.src e) + L.cost e < mincost) :
    Best L s (e :: edges) (s.acost (L.src e) + L.cost e) (some e) where
  le := List.forall_mem_cons.mpr ⟨le_rfl, fun e' he' => hlt.le.trans (h.le e' he')⟩
  unreached hnone := by cases hnone
  along := by
    rintro e' ⟨⟩
    exact ⟨List.mem_cons_self, rfl, hlt.trans_le le_top⟩

/-- An edge that is not better is passed by. -/
theorem Best.cons_ge (h : Best L s edges mincost minlink) {e : ε}
    (hge : mincost ≤ s.acost (L.src e) + L.cost e) : Best L s (e :: edges) mincost minlink where
  le := List.forall_mem_cons.mpr ⟨hge, h.le⟩
  unreached := h.unreached
  along e' he' := by
    obtain ⟨hmem, hrest⟩ := h.along e' he'
    exact ⟨.tail _ hmem, hrest⟩

end

/-! ## The search -/

section

variable [DecidableEq ν] {U done done' : Set ν} {s s' : Pass κ ν ε} {u v : ν}
  {mincost : WithTop κ} {minlink : Option ε}
  {visit : ν → Pass κ ν ε → Except Fault (Pass κ ν ε)} {fuel : ℕ}

/-- `visit` is right for the nodes of `U` that have at most `fuel` nodes above them. -/
def Looks (L : Lattice κ δ ν ε) (start : ν) (U : Set ν)
    (visit : ν → Pass κ ν ε → Except Fault (Pass κ ν ε)) (fuel : ℕ) : Prop :=
  ∀ (v : ν) (done : Set ν) (s : Pass κ ν ε), v ∈ U → L.height v ≤ fuel → v ∉ done →
    s.ndflag v = true → Searched L start done s →
    (∀ w, s.ndflag w = true → L.height w < L.height v → w ∈ done) →
    ∃ s' done', visit v s = .ok s' ∧ Searched L start done' s' ∧ v ∈ done' ∧
      Keeps L v done done' s s'

/-- The end of the loop over the edges that lead to a node. -/
theorem Searched.store (h : Searched L start done s) (hflag : s.ndflag v = true) (hnot : v ∉ done)
    (hbest : Best L s (L.into v) mincost minlink) (hinto : ∀ e ∈ L.into v, L.src e ∈ done) :
    Searched L start (insert v done) (s.store v mincost minlink) ∧
      Keeps L v done (insert v done) s (s.store v mincost minlink) := by
  have hne : ∀ {w}, w ∈ done → w ≠ v := fun hw => ne_of_mem_of_not_mem hw hnot
  have hacost : ∀ {w}, w ∈ done → (s.store v mincost minlink).acost w = s.acost w := fun hw =>
    Function.update_of_ne (hne hw) ..
  have hpath : ∀ {w}, w ∈ done → (s.store v mincost minlink).path w = s.path w := fun hw =>
    Function.update_of_ne (hne hw) ..
  have hself : (s.store v mincost minlink).acost v = mincost := Function.update_self ..
  have hself' : (s.store v mincost minlink).path v = minlink := Function.update_self ..
  constructor
  · exact {
      flagged := by
        rintro w (rfl | hw)
        · exact hflag
        · exact h.flagged w hw
      start_done := .inr h.start_done
      start_acost := (hacost h.start_done).trans h.start_acost
      start_path := (hpath h.start_done).trans h.start_path
      best := by
        rintro w (rfl | hw) hstart
        · rw [hself, hself']
          exact hbest.congr fun e he => hacost (hinto e he)
        · rw [hacost hw, hpath hw]
          exact (h.best w hw hstart).congr fun e he => hacost (h.into w hw hstart e he)
      into := by
        rintro w (rfl | hw) hstart e he
        · exact .inr (hinto e he)
        · exact .inr (h.into w hw hstart e he) }
  · exact {
      subset := Set.subset_insert ..
      lower := by
        rintro w (rfl | hw)
        · exact .inr le_rfl
        · exact .inl hw
      acost := fun w hw => hacost hw
      mono := fun w hw => hw
      flagged := fun w hw => .inr hw }

/-- Looking at a node that may not have been looked at. -/
theorem look_ok (hvisit : Looks L start U visit fuel) (huU : u ∈ U) (hfuel : L.height u ≤ fuel)
    (h : Searched L start done s)
    (hlower : ∀ w, s.ndflag w = true → L.height w ≤ L.height u → w ∈ done) :
    ∃ s' done', look visit u s = .ok s' ∧
      Searched L start done' s' ∧ u ∈ done' ∧ Keeps L u done done' s s' := by
  unfold look
  by_cases hflag : s.ndflag u = true
  · exact ⟨s, done, if_pos hflag, h, hlower u hflag le_rfl, Keeps.refl ..⟩
  have hnot : u ∉ done := fun hmem => hflag (h.flagged u hmem)
  have hmark : ∀ w, (s.mark u).ndflag w = true → w = u ∨ s.ndflag w = true := by
    intro w hw
    by_cases heq : w = u
    · exact .inl heq
    · exact .inr ((Function.update_of_ne heq ..).symm.trans hw)
  have hkeep : ∀ w, s.ndflag w = true → (s.mark u).ndflag w = true := by
    intro w hw
    by_cases heq : w = u
    · subst heq
      exact Function.update_self ..
    · exact (Function.update_of_ne heq ..).trans hw
  have hmarked : Searched L start done (s.mark u) :=
    { h with
      flagged := fun w hw => hkeep w (h.flagged w hw)
      best := fun w hw hstart => (h.best w hw hstart).congr fun _ _ => rfl }
  obtain ⟨s', done', heq, h', hmem, hkeeps⟩ := hvisit u done (s.mark u) huU hfuel hnot
    (Function.update_self ..) hmarked fun w hw hlt => by
      rcases hmark w hw with rfl | hw
      · exact absurd hlt (lt_irrefl _)
      · exact hlower w hw hlt.le
  refine ⟨s', done', (if_neg hflag).trans heq, h', hmem, ?_⟩
  exact {
    subset := hkeeps.subset
    lower := hkeeps.lower
    acost := hkeeps.acost
    mono := fun w hw => hkeeps.mono w (hkeep w hw)
    flagged := by
      intro w hw
      rcases hkeeps.flagged w hw with hd | hw
      · exact .inl hd
      · rcases hmark w hw with rfl | hw
        · exact .inl hmem
        · exact .inr hw }

/-- The loop over the edges that lead to a node, by induction on those that remain. -/
theorem viterbiLoop_ok (hvisit : Looks L start U visit fuel) (hL : L.Lawful)
    (hlower : ∀ e ∈ L.into v, L.src e ∈ U ∧ L.height (L.src e) < L.height v)
    (hfuel : L.height v ≤ fuel + 1) {rest seen : List ε} (hout : L.into v = seen.reverse ++ rest)
    (hnot : v ∉ done) (hflag : s.ndflag v = true) (h : Searched L start done s)
    (hdone : ∀ w, s.ndflag w = true → L.height w < L.height v → w ∈ done)
    (hbest : Best L s seen mincost minlink) (hseen : ∀ e ∈ seen, L.src e ∈ done) :
    ∃ s' done', viterbiLoop L visit v rest mincost minlink s = .ok s' ∧
      Searched L start done' s' ∧ v ∈ done' ∧ Keeps L v done done' s s' := by
  induction rest generalizing done seen mincost minlink s with
  | nil =>
      rw [List.append_nil] at hout
      have hmem : ∀ e, e ∈ L.into v ↔ e ∈ seen := fun e => by rw [hout, List.mem_reverse]
      have hbest' : Best L s (L.into v) mincost minlink := {
        le := fun e he => hbest.le e ((hmem e).mp he)
        unreached := hbest.unreached
        along := fun e he => by rw [hmem]; exact hbest.along e he }
      obtain ⟨h', hkeeps⟩ := h.store hflag hnot hbest' fun e he => hseen e ((hmem e).mp he)
      exact ⟨_, _, rfl, h', Set.mem_insert .., hkeeps⟩
  | cons e rest ih =>
      obtain ⟨huU, hlt⟩ := hlower e (by simp [hout])
      have hout' : L.into v = (e :: seen).reverse ++ rest := by simp [hout]
      obtain ⟨s₁, done₁, heq, h₁, hmem, hkeeps⟩ :=
        look_ok hvisit huU (Nat.lt_succ_iff.mp (hlt.trans_le hfuel)) h
          fun w hw hle => hdone w hw (hle.trans_lt hlt)
      have hkeeps' := hkeeps.of_height_le hlt.le
      have hnot₁ : v ∉ done₁ := fun hv => (hkeeps.lower v hv).elim hnot (Nat.not_le.mpr hlt)
      have hdone₁ : ∀ w, s₁.ndflag w = true → L.height w < L.height v → w ∈ done₁ := by
        intro w hw hheight
        exact (hkeeps.flagged w hw).elim id fun hw' => hkeeps.subset (hdone w hw' hheight)
      have hbest₁ : Best L s₁ seen mincost minlink :=
        hbest.congr fun e' he' => hkeeps.acost _ (hseen e' he')
      have hseen₁ : ∀ e' ∈ e :: seen, L.src e' ∈ done₁ :=
        List.forall_mem_cons.mpr ⟨hmem, fun e' he' => hkeeps.subset (hseen e' he')⟩
      -- the cost of coming along this edge is compared with the best so far
      have hrest : ∃ s' done',
          (if L.upcost (s₁.acost (L.src e)) e < mincost then
            viterbiLoop L visit v rest (L.upcost (s₁.acost (L.src e)) e) (some e) s₁
          else viterbiLoop L visit v rest mincost minlink s₁) = .ok s' ∧
          Searched L start done' s' ∧ v ∈ done' ∧ Keeps L v done₁ done' s₁ s' := by
        rw [hL.upcost]
        split
        case isTrue hbetter =>
          exact ih hout' hnot₁ (hkeeps.mono v hflag) h₁ hdone₁ (hbest₁.cons_lt hbetter) hseen₁
        case isFalse hworse =>
          exact ih hout' hnot₁ (hkeeps.mono v hflag) h₁ hdone₁
            (hbest₁.cons_ge (not_lt.mp hworse)) hseen₁
      obtain ⟨s', done', heq', h', hv, hkeeps''⟩ := hrest
      refine ⟨s', done', ?_, h', hv, hkeeps'.trans hkeeps''⟩
      simp only [viterbiLoop, heq, bind, Except.bind]
      exact heq'

/-- **Looking at a node is right**, by induction on the number of nodes above it. -/
theorem viterbiSub_ok (hL : L.Lawful)
    (hlower : ∀ v ∈ U, ∀ e ∈ L.into v, L.src e ∈ U ∧ L.height (L.src e) < L.height v)
    (hpos : ∀ v ∈ U, 0 < L.height v) (fuel : ℕ) : Looks L start U (viterbiSub L fuel) fuel := by
  induction fuel with
  | zero => exact fun v done s hvU hfuel => absurd (hpos v hvU) (Nat.not_lt.mpr hfuel)
  | succ fuel ih =>
      intro v done s hvU hfuel hnot hflag h hdone
      have hseen : ∀ e ∈ ([] : List ε), L.src e ∈ done := fun _ he => (List.not_mem_nil he).elim
      exact viterbiLoop_ok ih hL (hlower v hvU) hfuel rfl hnot hflag h hdone best_nil hseen

end

/-! ## The new graph -/

section

variable {g : GGraph κ δ} {n m : ℕ} {k : List (GLink κ δ)}

omit [AddCommMonoid κ] [LinearOrder κ]

/-- All the links of the graph are one path to the end. -/
structure Chain (g : GGraph κ δ) (n : ℕ) (k : List (GLink κ δ)) : Prop where
  links : g.links = k
  path : g.Path n k GGraph.endnode
  distinct : (k.map GLink.upnode).Nodup
  bound : n < g.nnodes

theorem chain_new : Chain (GGraph.new : GGraph κ δ) GGraph.endnode [] :=
  ⟨rfl, rfl, List.nodup_nil, Nat.one_lt_two⟩

theorem Chain.newnode (h : Chain g n k) :
    Chain g.newnode.2 n k ∧ g.nnodes ∉ k.map GLink.upnode := by
  refine ⟨⟨h.links, h.path, h.distinct, h.bound.trans (Nat.lt_succ_self _)⟩, fun hmem => ?_⟩
  obtain ⟨l, hl, heq⟩ := List.mem_map.mp hmem
  exact absurd heq (g.bounds l (h.links ▸ hl)).1.ne

theorem Chain.linkm (h : Chain g n k) (F : Frame κ δ ν ε) (e : ε) (hend : m ≠ GGraph.endnode)
    (hm : m < g.nnodes) (hnot : m ∉ k.map GLink.upnode) :
    ∃ g' l, g.linkm m n (F.cost e) (F.label e) (F.meaning e) (F.data e) = .ok g' ∧
      Chain g' m (l :: k) ∧ Carries F e l ∧ l.upnode = m := by
  obtain ⟨g', hlink, hnodes, -, hlinks⟩ :=
    GGraph.linkm_ok (F.cost e) (F.label e) (F.meaning e) (F.data e) hend hm h.bound
  rw [h.links] at hlinks
  let l : GLink κ δ := ⟨g.nlinks, m, n, F.cost e, F.label e, F.meaning e, F.data e⟩
  have hsub : ∀ (q : List (GLink κ δ)) (a b : ℕ), g.Path a q b → g'.Path a q b := by
    intro q
    induction q with
    | nil => exact fun a b hq => hq
    | cons l q ih =>
        intro a b hq
        obtain ⟨hmem, hup⟩ := GGraph.mem_downlink.mp hq.1
        exact ⟨GGraph.mem_downlink.mpr ⟨hlinks ▸ .tail _ (h.links ▸ hmem), hup⟩, ih _ b hq.2⟩
  refine ⟨g', l, hlink, ⟨hlinks, ⟨?_, hsub k n _ h.path⟩, ?_, hnodes ▸ hm⟩,
    ⟨rfl, rfl, rfl, rfl⟩, rfl⟩
  · exact GGraph.mem_downlink.mpr ⟨hlinks ▸ List.mem_cons_self, rfl⟩
  · exact List.nodup_cons.mpr ⟨hnot, h.distinct⟩

/-- The path is the only one. -/
theorem Chain.unique (h : Chain g n k) {q : List (GLink κ δ)} (hq : g.Path n q GGraph.endnode) :
    q = k := by
  have hsuffix : ∀ (k' : List (GLink κ δ)) (a : ℕ) (q : List (GLink κ δ)), k' ⊆ k →
      g.Path a k' GGraph.endnode → g.Path a q GGraph.endnode → q = k' := by
    intro k'
    induction k' with
    | nil =>
        rintro a (_ | ⟨l, q⟩) - rfl hq
        · rfl
        · have hl := hq.1
          rw [GGraph.downlink_endnode] at hl
          cases hl
    | cons l k' ih =>
        rintro a (_ | ⟨l', q⟩) hsub hk hq
        · obtain rfl : a = GGraph.endnode := hq
          have hl := hk.1
          rw [GGraph.downlink_endnode] at hl
          cases hl
        · obtain ⟨hmem, hup⟩ := GGraph.mem_downlink.mp hk.1
          obtain ⟨hmem', hup'⟩ := GGraph.mem_downlink.mp hq.1
          rw [h.links] at hmem hmem'
          obtain rfl := List.inj_on_of_nodup_map h.distinct hmem' hmem (hup'.trans hup.symm)
          rw [ih _ q (List.subset_of_cons_subset hsub) hk.2 hq.2]
  exact hsuffix k n q (List.Subset.refl k) h.path hq

theorem paths_new : (GGraph.new : GGraph κ δ).Paths = ∅ := by
  rw [Set.eq_empty_iff_forall_notMem]
  rintro (_ | ⟨l, q⟩) hq
  · cases (hq : GGraph.startnode = GGraph.endnode)
  · cases (GGraph.mem_downlink.mp hq.1).1

end

/-! ## The best path -/

section

variable {U done : Set ν} {s : Pass κ ν ε} {v : ν} {p : List ε}

/-- The cost of a path. -/
def Frame.pathCost (F : Frame κ δ ν ε) (p : List ε) : κ := (p.map F.cost).sum

/-- The cost of a node is at most that of every way to it. -/
theorem Searched.le_cost [IsOrderedAddMonoid κ] (h : Searched L start done s) (hacyclic : Acyclic L.into L.src)
    (hv : v ∈ done) (hp : Walk L.into L.src v p start) : s.acost v ≤ L.pathCost p := by
  induction p generalizing v with
  | nil =>
      obtain rfl : v = start := hp
      exact h.start_acost.le
  | cons e p ih =>
      have hne : v ≠ start := by
        rintro rfl
        cases hacyclic v _ hp
      have hrest := ih (h.into v hv hne e hp.1) hp.2
      calc s.acost v ≤ s.acost (L.src e) + L.cost e := (h.best v hv hne).le e hp.1
        _ ≤ L.pathCost p + L.cost e := by gcongr
        _ = L.pathCost (e :: p) := by
            rw [Frame.pathCost, Frame.pathCost, List.map_cons, List.sum_cons, add_comm,
              WithTop.coe_add]

/-- Going back along the links that are kept copies a way of the cost that is stored. -/
theorem retrace_ok [DecidableEq ν] (h : Searched L start done s)
    (hlower : ∀ v ∈ U, ∀ e ∈ L.into v, L.src e ∈ U ∧ L.height (L.src e) < L.height v) {fuel n : ℕ}
    {g : GGraph κ δ} {k : List (GLink κ δ)} (hvU : v ∈ U) (hv : v ∈ done) (hlt : s.acost v < ⊤)
    (hfuel : L.height v < fuel) (hchain : Chain g n k) (hn : v = start → n = GGraph.startnode)
    (hfresh : v ≠ start → GGraph.startnode ∉ k.map GLink.upnode) :
    ∃ g' p k', retrace L start s.path fuel v n g = .ok g' ∧ Walk L.into L.src v p start ∧
      s.acost v = L.pathCost p ∧ List.Forall₂ (Carries L.toFrame) p.reverse k' ∧
      Chain g' GGraph.startnode (k' ++ k) := by
  induction fuel generalizing v n g k with
  | zero => exact absurd hfuel (Nat.not_lt_zero _)
  | succ fuel ih =>
      by_cases hstart : v = start
      · subst hstart
        refine ⟨g, [], [], ?_, rfl, h.start_acost, .nil, hn rfl ▸ hchain⟩
        simp only [retrace, h.start_path]
      have hbest := h.best v hv hstart
      cases hpath : s.path v with
      | none => exact absurd (hbest.unreached hpath) hlt.ne
      | some e =>
          obtain ⟨he, hcost, -⟩ := hbest.along e hpath
          have hsrc := h.into v hv hstart e he
          have hsrclt : s.acost (L.src e) < ⊤ := (WithTop.add_lt_top.mp (hcost ▸ hlt)).1
          obtain ⟨hsrcU, hheight⟩ := hlower v hvU e he
          -- the node at the other end of the link
          have hnode : ∃ m g₁,
              (if L.src e = start then (GGraph.startnode, g) else g.newnode) = (m, g₁) ∧
              Chain g₁ n k ∧ m ≠ GGraph.endnode ∧ m < g₁.nnodes ∧ m ∉ k.map GLink.upnode ∧
              (L.src e = start → m = GGraph.startnode) ∧
              (L.src e ≠ start → m ≠ GGraph.startnode) := by
            by_cases heq : L.src e = start
            · exact ⟨_, _, if_pos heq, hchain, Nat.zero_ne_one, Nat.two_pos.trans_le g.two_le,
                hfresh hstart, fun _ => rfl, fun hne => absurd heq hne⟩
            · obtain ⟨hchain', hnot⟩ := hchain.newnode
              have htwo := g.two_le
              exact ⟨_, _, if_neg heq, hchain', (Nat.lt_of_lt_of_le Nat.one_lt_two htwo).ne',
                Nat.lt_succ_self _, hnot, fun h => absurd h heq,
                fun _ => (Nat.two_pos.trans_le htwo).ne'⟩
          obtain ⟨m, g₁, hif, hchain₁, hend, hm, hnot, hmstart, hmfresh⟩ := hnode
          obtain ⟨g₂, l, hlink, hchain₂, hcarries, hup⟩ :=
            hchain₁.linkm L.toFrame e hend hm hnot
          have hfresh₂ : L.src e ≠ start → GGraph.startnode ∉ (l :: k).map GLink.upnode := by
            intro hne
            rw [List.map_cons, List.mem_cons, not_or, hup]
            exact ⟨(hmfresh hne).symm, hfresh hstart⟩
          obtain ⟨g', p, k', heq, hp, hpcost, hcopy, hchain'⟩ :=
            ih hsrcU hsrc hsrclt (hheight.trans_le (Nat.lt_succ_iff.mp hfuel)) hchain₂ hmstart hfresh₂
          refine ⟨g', e :: p, k' ++ [l], ?_, ⟨he, hp⟩, ?_, ?_, ?_⟩
          · simp only [retrace, hpath, hif, hlink, bind, Except.bind]
            exact heq
          · rw [hcost, hpcost, Frame.pathCost, Frame.pathCost, List.map_cons, List.sum_cons,
              add_comm, WithTop.coe_add]
          · rw [List.reverse_cons]
            exact List.rel_append hcopy (.cons hcarries .nil)
          · rw [List.append_assoc]
            exact hchain'

/-- **Viterbi is optimal** for a lattice without cycles. -/
theorem viterbi_ok [IsOrderedAddMonoid κ] [DecidableEq ν] {fuel : ℕ} (hL : L.Lawful)
    (hacyclic : Acyclic L.out L.dst) (hU : U.Finite)
    (hclosed : ∀ v ∈ U, ∀ e ∈ L.into v, L.src e ∈ U) (hstop : stop ∈ U) (hne : start ≠ stop)
    (hfuel : U.ncard < fuel) (acost : ν → WithTop κ) :
    ∃ g, viterbi L fuel acost start stop = .ok g ∧
      ((∃ p k, Walk L.out L.dst start p stop ∧
          (∀ q, Walk L.out L.dst start q stop → L.pathCost p ≤ L.pathCost q) ∧
          List.Forall₂ (Carries L.toFrame) p k ∧ g.Paths = {k}) ∨
        (¬Leads L.out L.dst start stop ∧ g.Paths = ∅)) := by
  have hreverse : ∀ {a b : ν} {p : List ε},
      Walk L.into L.src a p.reverse b ↔ Walk L.out L.dst b p a :=
    Walks.walk_reverse hL.into hL.src
  have hacyclic' : Acyclic L.into L.src := by
    intro a p hp
    rw [← List.reverse_reverse p, hreverse] at hp
    exact List.reverse_eq_nil_iff.mp (hacyclic a _ hp)
  have hfin : ∀ v ∈ U, {w | Leads L.into L.src v w}.Finite := fun v hv =>
    hU.subset fun w hw => Walks.Leads.mem hclosed hv hw
  have hlower : ∀ v ∈ U, ∀ e ∈ L.into v, L.src e ∈ U ∧ L.height (L.src e) < L.height v :=
    fun v hv e he => ⟨hclosed v hv e he, hacyclic'.ncard_lt (hfin v hv) he⟩
  have hpos : ∀ v ∈ U, 0 < L.height v := fun v hv =>
    (Set.ncard_pos (hfin v hv)).mpr ⟨v, Walks.leads_self v⟩
  have hheight : L.height stop < fuel :=
    (Set.ncard_le_ncard (fun w hw => Walks.Leads.mem hclosed hstop hw) hU).trans_lt hfuel
  -- only the start is done before the search
  let s₀ : Pass κ ν ε :=
    { ndflag := fun v => v = start ∨ v = stop
      acost := Function.update acost start 0
      path := fun _ => none }
  have h₀ : Searched L start {start} s₀ := {
    flagged := by
      rintro v rfl
      simp [s₀]
    start_done := rfl
    start_acost := Function.update_self ..
    start_path := rfl
    best := fun v hv hvs => absurd hv hvs
    into := fun v hv hvs => absurd hv hvs }
  have hflagged : ∀ w, s₀.ndflag w = true → L.height w < L.height stop → w ∈ ({start} : Set ν) := by
    intro w hw hlt
    rcases of_decide_eq_true hw with rfl | rfl
    · rfl
    · exact absurd hlt (lt_irrefl _)
  obtain ⟨s, done, heq, h, hdone, -⟩ := viterbiSub_ok hL hlower hpos fuel stop {start} s₀ hstop
    hheight.le hne.symm (by simp [s₀]) h₀ hflagged
  have hrun : viterbi L fuel acost start stop =
      retrace L start s.path fuel stop GGraph.endnode GGraph.new := by
    simp only [viterbi, bind, Except.bind]
    rw [show viterbiSub L fuel stop _ = .ok s from heq]
  rw [hrun]
  by_cases hlt : s.acost stop < ⊤
  · obtain ⟨g, p, k, hretrace, hp, hcost, hcopy, hchain⟩ := retrace_ok h hlower hstop hdone hlt
      hheight chain_new (fun h => absurd h.symm hne) fun _ => List.not_mem_nil
    rw [List.append_nil] at hchain
    refine ⟨g, hretrace, .inl ⟨p.reverse, k, ?_, fun q hq => ?_, hcopy, ?_⟩⟩
    · rw [← hreverse, List.reverse_reverse]
      exact hp
    · have hle := h.le_cost hacyclic' hdone (hreverse.mpr hq)
      have hsum : ∀ p : List ε, L.pathCost p.reverse = L.pathCost p := fun p => by
        rw [Frame.pathCost, Frame.pathCost, List.map_reverse, List.sum_reverse]
      rwa [hcost, WithTop.coe_le_coe, hsum, ← hsum p] at hle
    · exact Set.eq_singleton_iff_unique_mem.mpr ⟨hchain.path, fun q hq => hchain.unique hq⟩
  · refine ⟨GGraph.new, ?_, .inr ⟨fun ⟨q, hq⟩ => hlt ?_, paths_new⟩⟩
    · have hnone : s.path stop = none := by
        cases hpath : s.path stop with
        | none => rfl
        | some e => exact absurd ((h.best stop hdone hne.symm).along e hpath).2.2 hlt
      obtain ⟨fuel, rfl⟩ := Nat.exists_eq_succ_of_ne_zero (Nat.ne_zero_of_lt hfuel)
      simp only [retrace, hnone]
    · exact (h.le_cost hacyclic' hdone (hreverse.mpr hq)).trans_lt (WithTop.coe_lt_top _)

end

/-! ## Graphs -/

section

open GGraph (startnode endnode)

variable {graph graph1 graph2 : GGraph κ δ} {check : GLink κ δ → GLink κ δ → Bool}

/-- The cost of a path of a graph. -/
def linksCost (p : List (GLink κ δ)) : κ := (p.map GLink.cost).sum

/-- The one path of the new graph copies a path of least cost, or there is no path in either. -/
def CopiesBest (graph g : GGraph κ δ) : Prop :=
  (∃ p k, p ∈ graph.Paths ∧ (∀ q ∈ graph.Paths, linksCost p ≤ linksCost q) ∧
    List.Forall₂ GLink.Copies p k ∧ g.Paths = {k}) ∨
  (graph.Paths = ∅ ∧ g.Paths = ∅)

/-- Each of the graphs has one path and they cost the same, or there is no path in either. -/
def SameCost (g h : GGraph κ δ) : Prop :=
  (∃ k k', g.Paths = {k} ∧ h.Paths = {k'} ∧ linksCost k' = linksCost k) ∨
  (g.Paths = ∅ ∧ h.Paths = ∅)

omit [LinearOrder κ] in
theorem viterbiLattice_lawful : (viterbiLattice graph).Lawful where
  into v l := by
    change l ∈ graph.uplink v ↔ l ∈ graph.downlink l.upnode ∧ l.downnode = v
    rw [GGraph.mem_uplink, GGraph.mem_downlink]
    exact ⟨fun h => ⟨⟨h.1, rfl⟩, h.2⟩, fun h => ⟨h.1.1, h.2⟩⟩
  src v l hl := (GGraph.mem_downlink.mp hl).2
  upcost c l := add_comm ..

theorem composeLattice_lawful : (composeLattice graph1 graph2 check).Lawful where
  into v l := by
    have hinto : l ∈ (composeLattice graph1 graph2 check).into v ↔
        l.1 ∈ graph1.uplink v.1 ∧ l.2 ∈ graph2.uplink v.2 ∧ check l.1 l.2 = true := by
      obtain ⟨l1, l2⟩ := l
      simp [composeLattice]
    change _ ↔ l ∈ (composeFrame graph1 graph2 check).out (l.1.upnode, l.2.upnode) ∧
      (l.1.downnode, l.2.downnode) = v
    rw [hinto, mem_composeFrame_out, GGraph.mem_uplink, GGraph.mem_uplink, GGraph.mem_downlink,
      GGraph.mem_downlink]
    constructor
    · rintro ⟨⟨h1, hd1⟩, ⟨h2, hd2⟩, hcheck⟩
      exact ⟨⟨⟨h1, rfl⟩, ⟨h2, rfl⟩, hcheck⟩, Prod.ext hd1 hd2⟩
    · rintro ⟨⟨⟨h1, -⟩, ⟨h2, -⟩, hcheck⟩, hdst⟩
      obtain ⟨hd1, hd2⟩ := Prod.mk.inj hdst
      exact ⟨⟨h1, hd1⟩, ⟨h2, hd2⟩, hcheck⟩
  src v l hl := by
    obtain ⟨h1, h2, -⟩ := mem_composeFrame_out.mp hl
    exact Prod.ext (GGraph.mem_downlink.mp h1).2 (GGraph.mem_downlink.mp h2).2
  upcost c l := by
    by_cases hc : c < ⊤
    · exact if_pos hc
    · rw [not_lt_top_iff.mp hc]
      simp [composeLattice]

omit [LinearOrder κ] in
theorem composeFrame_acyclic (hacyclic : graph1.Acyclic) :
    Acyclic (composeFrame graph1 graph2 check).out (composeFrame graph1 graph2 check).dst := by
  intro v p hp
  exact List.map_eq_nil_iff.mp (hacyclic v.1 _ (composeFrame_walk.mp hp).1)

variable [IsOrderedAddMonoid κ]

/-- `g-viterbi` copies a path of least cost. -/
theorem gViterbi_ok (hacyclic : graph.Acyclic) (acost : ℕ → WithTop κ) :
    ∃ g, gViterbi graph acost = .ok g ∧ CopiesBest graph g := by
  have hclosed : ∀ v ∈ Set.Iio graph.nnodes, ∀ l ∈ (viterbiLattice graph).into v,
      (viterbiLattice graph).src l ∈ Set.Iio graph.nnodes :=
    fun v _ l hl => (graph.bounds l (GGraph.mem_uplink.mp hl).1).1
  have hfuel : (Set.Iio graph.nnodes).ncard < graph.nnodes + 1 := by
    rw [← Finset.coe_range, Set.ncard_coe_finset, Finset.card_range]
    exact Nat.lt_succ_self _
  have hstop : endnode ∈ Set.Iio graph.nnodes := Nat.one_lt_two.trans_le graph.two_le
  have hne : startnode ≠ endnode := Nat.zero_ne_one
  obtain ⟨g, heq, hbest⟩ := viterbi_ok viterbiLattice_lawful hacyclic
    (Set.finite_Iio graph.nnodes) hclosed hstop hne hfuel acost
  refine ⟨g, heq, hbest.imp ?_ ?_⟩
  · rintro ⟨p, k, hp, hle, hcopy, hpaths⟩
    refine ⟨p, k, hp, hle, hcopy.imp fun l l' h => ?_, hpaths⟩
    exact ⟨h.cost, h.label, h.meaning, h.data⟩
  · rintro ⟨hunreach, hpaths⟩
    exact ⟨Set.eq_empty_iff_forall_notMem.mpr fun p hp => hunreach ⟨p, hp⟩, hpaths⟩

/-- `g-compose-viterbi` copies a pair of paths of least cost. -/
theorem gComposeViterbi_ok (graph1 graph2 : GGraph κ δ)
    (check : GLink κ δ → GLink κ δ → Bool) (hacyclic : graph1.Acyclic) :
    ∃ h, gComposeViterbi graph1 graph2 check = .ok h ∧
      ((∃ p k, Walk (composeFrame graph1 graph2 check).out (composeFrame graph1 graph2 check).dst
          (startnode, startnode) p (endnode, endnode) ∧
        (∀ q, Walk (composeFrame graph1 graph2 check).out (composeFrame graph1 graph2 check).dst
          (startnode, startnode) q (endnode, endnode) →
          (composeFrame graph1 graph2 check).pathCost p ≤
            (composeFrame graph1 graph2 check).pathCost q) ∧
        List.Forall₂ (Carries (composeFrame graph1 graph2 check)) p k ∧ h.Paths = {k}) ∨
      (¬Leads (composeFrame graph1 graph2 check).out (composeFrame graph1 graph2 check).dst
        (startnode, startnode) (endnode, endnode) ∧ h.Paths = ∅)) := by
  let U := Finset.range graph1.nnodes ×ˢ Finset.range graph2.nnodes
  have hclosed : ∀ v ∈ (U : Set (ℕ × ℕ)), ∀ l ∈ (composeLattice graph1 graph2 check).into v,
      (composeLattice graph1 graph2 check).src l ∈ (U : Set (ℕ × ℕ)) := by
    intro v _ l hl
    obtain ⟨h1, h2, -⟩ := mem_composeFrame_out.mp ((composeLattice_lawful.into v l).mp hl).1
    have hbound1 := (graph1.bounds l.1 (GGraph.mem_downlink.mp h1).1).1
    have hbound2 := (graph2.bounds l.2 (GGraph.mem_downlink.mp h2).1).1
    exact Finset.mem_product.mpr ⟨Finset.mem_range.mpr hbound1, Finset.mem_range.mpr hbound2⟩
  have hstop : (endnode, endnode) ∈ (U : Set (ℕ × ℕ)) :=
    Finset.mem_product.mpr ⟨Finset.mem_range.mpr (Nat.one_lt_two.trans_le graph1.two_le),
      Finset.mem_range.mpr (Nat.one_lt_two.trans_le graph2.two_le)⟩
  have hne : (startnode, startnode) ≠ (endnode, endnode) := by decide
  have hfuel : (U : Set (ℕ × ℕ)).ncard < graph1.nnodes * graph2.nnodes + 1 := by
    rw [Set.ncard_coe_finset, Finset.card_product, Finset.card_range, Finset.card_range]
    exact Nat.lt_succ_self _
  exact viterbi_ok composeLattice_lawful (composeFrame_acyclic hacyclic) U.finite_toSet hclosed
    hstop hne hfuel fun _ => 0

omit [LinearOrder κ] [IsOrderedAddMonoid κ] in
/-- Links that carry the costs of edges cost the same. -/
theorem linksCost_of_carries {F : Frame κ δ ν ε} {p : List ε} {k : List (GLink κ δ)}
    (h : List.Forall₂ (Carries F) p k) : linksCost k = F.pathCost p := by
  induction h with
  | nil => rfl
  | cons hl _ ih =>
      rw [linksCost, Frame.pathCost] at ih ⊢
      rw [List.map_cons, List.map_cons, List.sum_cons, List.sum_cons, ih, hl.cost]

omit [LinearOrder κ] [IsOrderedAddMonoid κ] in
theorem linksCost_of_copies {p k : List (GLink κ δ)} (h : List.Forall₂ GLink.Copies p k) :
    linksCost k = linksCost p := by
  induction h with
  | nil => rfl
  | cons hl _ ih =>
      rw [linksCost, linksCost] at ih ⊢
      rw [List.map_cons, List.map_cons, List.sum_cons, List.sum_cons, ih, hl.cost]

/-- **Viterbi is optimal and composes.** -/
theorem viterbi_optimal_composes :
    (∀ (graph : GGraph κ δ) (acost : ℕ → WithTop κ), graph.Acyclic →
      ∃ g, gViterbi graph acost = .ok g ∧ CopiesBest graph g) ∧
    ∀ (graph1 graph2 : GGraph κ δ) (check : GLink κ δ → GLink κ δ → Bool)
      (acost : ℕ → WithTop κ), graph1.Acyclic → graph2.Acyclic →
      ∃ composed g h, gCompose graph1 graph2 check = .ok composed ∧
        gViterbi composed acost = .ok g ∧ gComposeViterbi graph1 graph2 check = .ok h ∧
        SameCost g h := by
  refine ⟨fun graph acost hacyclic => gViterbi_ok hacyclic acost, ?_⟩
  intro graph1 graph2 check acost hacyclic _
  obtain ⟨composed, origin, hcompose, hbij, hcarries, hcomposed⟩ :=
    gCompose_paths graph1 graph2 check
  obtain ⟨g, hg, hbest⟩ := gViterbi_ok (hcomposed (composeFrame_acyclic hacyclic)) acost
  obtain ⟨h, hh, hpair⟩ := gComposeViterbi_ok graph1 graph2 check hacyclic
  refine ⟨composed, g, h, hcompose, hg, hh, ?_⟩
  -- a path of the composed graph costs what its walk does
  have hcost : ∀ p ∈ composed.Paths, linksCost p =
      (composeFrame graph1 graph2 check).pathCost (p.map origin) := by
    intro p hp
    refine linksCost_of_carries (List.forall₂_map_left_iff.mpr (List.forall₂_same.mpr ?_))
    exact fun l hl => hcarries l (GGraph.Path.mem_links hp hl)
  rcases hbest with ⟨p, k, hp, hle, hcopy, hpaths⟩ | ⟨hnone, hpaths⟩
  · rcases hpair with ⟨q, k', hq, hle', hcopy', hpaths'⟩ | ⟨hunreach, -⟩
    · refine .inl ⟨k, k', hpaths, hpaths', le_antisymm ?_ ?_⟩
      all_goals rw [linksCost_of_carries hcopy', linksCost_of_copies hcopy]
      · rw [hcost p hp]
        exact hle' _ (hbij.mapsTo hp)
      · obtain ⟨p', hp', rfl⟩ := hbij.surjOn hq
        rw [← hcost p' hp']
        exact hle p' hp'
    · exact absurd ⟨_, hbij.mapsTo hp⟩ hunreach
  · rcases hpair with ⟨q, k', hq, -⟩ | ⟨-, hpaths'⟩
    · obtain ⟨p', hp', -⟩ := hbij.surjOn hq
      rw [hnone] at hp'
      cases hp'
    · exact .inr ⟨hpaths, hpaths'⟩

end

/-- A link from the start to the end, and a cheaper way round. -/
def detourLinks : List (GLink ℤ Unit) :=
  [⟨2, 0, 1, 2, 97, 97, ()⟩, ⟨1, 2, 1, -3, 98, 98, ()⟩, ⟨0, 0, 2, 4, 99, 99, ()⟩]

theorem detourLinks_valid :
    (detourLinks.map GLink.id).Nodup ∧ ∀ l ∈ detourLinks,
      l.id < 3 ∧ (l.upnode < 3 ∧ l.downnode < 3) ∧ l.upnode ≠ 1 := by
  decide

/-- The graph of these links. -/
def detour : GGraph ℤ Unit where
  nnodes := 3
  nlinks := 3
  links := detourLinks
  two_le := Nat.le_succ 2
  ids l hl := (detourLinks_valid.2 l hl).1
  sorted := detourLinks_valid.1
  bounds l hl := (detourLinks_valid.2 l hl).2.1
  terminal l hl := (detourLinks_valid.2 l hl).2.2

theorem detour_acyclic : detour.Acyclic :=
  GGraph.acyclic_of_rank (fun v => if v = 1 then 2 else if v = 2 then 1 else 0) (by decide)

theorem viterbi_optimal_composes_detour :
    (∃ g, gViterbi detour (fun _ => 7) = .ok g ∧ CopiesBest detour g) ∧
      ∃ composed g h, gCompose detour detour (fun l l' => l.label = l'.label) = .ok composed ∧
        gViterbi composed (fun _ => 7) = .ok g ∧
        gComposeViterbi detour detour (fun l l' => l.label = l'.label) = .ok h ∧ SameCost g h :=
  ⟨viterbi_optimal_composes.1 detour _ detour_acyclic,
    viterbi_optimal_composes.2 detour detour _ _ detour_acyclic detour_acyclic⟩

end Lush.Graph
