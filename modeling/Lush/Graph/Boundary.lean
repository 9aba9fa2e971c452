import Lush.Graph.Cleanup

/-!
# The boundaries are right

if the null transitions form no cycle, apart from those that lead from a node to itself.  The set of
a node is complete when its visit ends (`gramCleanupBoundary_ok`), by induction on the number of
nodes that null transitions lead to: a set that is used is that of a node with fewer.

On a cycle of null transitions, the search uses the set of a node whose visit has not ended.
-/

namespace Lush.Graph

open Automata (Nulls)

variable {κ δ : Type}

/-! ## Sets -/

section

variable {p1 p2 : List ℕ} {id x : ℕ}

theorem mem_setAdd : x ∈ setAdd p1 id ↔ x = id ∨ x ∈ p1 := by
  induction p1 with
  | nil => simp [setAdd]
  | cons data rest ih =>
      unfold setAdd
      split
      · simp only [List.mem_cons, ih]
        tauto
      · split
        case isTrue heq =>
          subst heq
          simp
        case isFalse => simp

theorem sorted_setAdd (h : p1.Pairwise (· < ·)) : (setAdd p1 id).Pairwise (· < ·) := by
  induction p1 with
  | nil => simp [setAdd]
  | cons data rest ih =>
      obtain ⟨hlt, hrest⟩ := List.pairwise_cons.mp h
      unfold setAdd
      split
      case isTrue hid =>
        refine List.pairwise_cons.mpr ⟨fun y hy => ?_, ih hrest⟩
        rcases mem_setAdd.mp hy with rfl | hy
        · exact hid
        · exact hlt y hy
      case isFalse hid =>
        split
        case isTrue => exact h
        case isFalse hne =>
          refine List.pairwise_cons.mpr ⟨fun y hy => ?_, h⟩
          have hid' : id < data := by omega
          rcases List.mem_cons.mp hy with rfl | hy
          · exact hid'
          · exact hid'.trans (hlt y hy)

theorem mem_setUnion : x ∈ setUnion p1 p2 ↔ x ∈ p1 ∨ x ∈ p2 := by
  induction p1 generalizing p2 with
  | nil => simp [setUnion]
  | cons data1 p1 ih =>
      unfold setUnion
      induction p2 with
      | nil => simp [unionFrom]
      | cons data2 p2 ih2 =>
          unfold unionFrom
          split
          · rw [List.mem_cons, ih]
            simp only [List.mem_cons]
            tauto
          · split
            case isTrue heq =>
              rw [ih2, heq]
              simp only [List.mem_cons]
              tauto
            case isFalse =>
              rw [List.mem_cons, ih2]
              simp only [List.mem_cons]
              tauto

theorem sorted_setUnion (h1 : p1.Pairwise (· < ·)) (h2 : p2.Pairwise (· < ·)) :
    (setUnion p1 p2).Pairwise (· < ·) := by
  induction p1 generalizing p2 with
  | nil => exact h2
  | cons data1 p1 ih =>
      obtain ⟨hlt1, hrest1⟩ := List.pairwise_cons.mp h1
      induction p2 with
      | nil => exact h1
      | cons data2 p2 ih2 =>
          obtain ⟨hlt2, hrest2⟩ := List.pairwise_cons.mp h2
          have hmem : ∀ {y}, y ∈ unionFrom data1 p1 (setUnion p1) p2 → y ∈ data1 :: p1 ∨ y ∈ p2 :=
            fun hy => mem_setUnion.mp (show _ ∈ setUnion (data1 :: p1) p2 from hy)
          unfold setUnion unionFrom
          split
          case isTrue hlt =>
            refine List.pairwise_cons.mpr ⟨fun y hy => ?_, ih hrest1 h2⟩
            rcases mem_setUnion.mp hy with hy | hy
            · exact hlt1 y hy
            · rcases List.mem_cons.mp hy with rfl | hy
              · exact hlt
              · exact hlt.trans (hlt2 y hy)
          case isFalse hge =>
            split
            case isTrue => exact ih2 hrest2
            case isFalse hne =>
              refine List.pairwise_cons.mpr ⟨fun y hy => ?_, ih2 hrest2⟩
              have hlt : data2 < data1 := by omega
              rcases hmem hy with hy | hy
              · rcases List.mem_cons.mp hy with rfl | hy
                · exact hlt
                · exact hlt.trans (hlt1 y hy)
              · exact hlt2 y hy

theorem setCheck_iff (h : p1.Pairwise (· < ·)) : setCheck p1 id = true ↔ id ∈ p1 := by
  induction p1 with
  | nil => simp [setCheck]
  | cons data rest ih =>
      obtain ⟨hlt, hrest⟩ := List.pairwise_cons.mp h
      unfold setCheck
      split
      case isTrue hid =>
        rw [ih hrest, List.mem_cons, or_iff_right hid.ne']
      case isFalse hid =>
        rw [decide_eq_true_eq, List.mem_cons, eq_comm, or_iff_left_of_imp]
        exact fun hmem => absurd (hlt id hmem) hid

theorem setCompare_iff : setCompare p1 p2 = true ↔ p1 = p2 := by
  induction p1 generalizing p2 with
  | nil => cases p2 <;> simp [setCompare]
  | cons data1 p1 ih =>
      cases p2 with
      | nil => simp [setCompare]
      | cons data2 p2 =>
          unfold setCompare
          split
          case isTrue heq => rw [ih, heq, List.cons_inj_right]
          case isFalse hne => simp [hne]

end

/-! ## Words -/

section

variable {graph : GGraph κ δ} {v w m : ℕ} {l : GLink κ δ}

/-- What is read on a link. -/
def reading (label : ℤ) : Option ℤ := if label = labNull then none else some label

/-- A link as a transition of an automaton. -/
def GGraph.step (graph : GGraph κ δ) (v : ℕ) (a : Option ℤ) (w : ℕ) : Prop :=
  ∃ l ∈ graph.downlink v, reading l.label = a ∧ l.downnode = w

/-- Other null transitions than those from a node to itself. -/
def GGraph.nullLinks (graph : GGraph κ δ) (v : ℕ) : List (GLink κ δ) :=
  (graph.downlink v).filter fun l => l.label = labNull ∧ l.downnode ≠ v

/-- Null transitions form no cycle, apart from those that lead from a node to itself. -/
def GGraph.NullAcyclic (graph : GGraph κ δ) : Prop :=
  Walks.Acyclic graph.nullLinks GLink.downnode

/-- The number of nodes that null transitions lead to. -/
noncomputable def GGraph.depth (graph : GGraph κ δ) (v : ℕ) : ℕ :=
  {w | Walks.Leads graph.nullLinks GLink.downnode v w}.ncard

/-- The boundary. -/
def InBoundary (graph : GGraph κ δ) (v m : ℕ) : Prop :=
  Nulls graph.step v m ∧ (m = GGraph.endnode ∨ ∃ l ∈ graph.downlink m, l.label ≠ labNull)

theorem reading_eq_none {label : ℤ} : reading label = none ↔ label = labNull := by
  unfold reading
  split <;> simp [*]

theorem reading_eq_some {label a : ℤ} : reading label = some a ↔ label = a ∧ label ≠ labNull := by
  unfold reading
  split <;> simp [*]

/-- A boundary is what the node itself adds, and the boundaries of the other nodes that null
transitions lead to. -/
theorem inBoundary_iff : InBoundary graph v m ↔
    (m = v ∧ (v = GGraph.endnode ∨ ∃ l ∈ graph.downlink v, l.label ≠ labNull)) ∨
      ∃ l ∈ graph.downlink v, l.label = labNull ∧ l.downnode ≠ v ∧
        InBoundary graph l.downnode m := by
  constructor
  · rintro ⟨hnulls, hm⟩
    have hfirst : ∀ u, Nulls graph.step u m → u = v → m = v ∨
        ∃ l ∈ graph.downlink v, l.label = labNull ∧ l.downnode ≠ v ∧
          Nulls graph.step l.downnode m := by
      intro u hu
      induction hu using Relation.ReflTransGen.head_induction_on with
      | refl => exact .inl
      | @head u c hstep hrest ih =>
          rintro rfl
          obtain ⟨l, hl, hread, rfl⟩ := hstep
          by_cases heq : l.downnode = u
          · exact ih heq
          · exact .inr ⟨l, hl, reading_eq_none.mp hread, heq, hrest⟩
    rcases hfirst v hnulls rfl with rfl | ⟨l, hl, hnull, hne, hrest⟩
    · exact .inl ⟨rfl, hm⟩
    · exact .inr ⟨l, hl, hnull, hne, hrest, hm⟩
  · rintro (⟨rfl, hm⟩ | ⟨l, hl, hnull, -, hrest, hm⟩)
    · exact ⟨.refl, hm⟩
    · exact ⟨.head ⟨l, hl, reading_eq_none.mpr hnull, rfl⟩ hrest, hm⟩

theorem leads_nullLinks_lt (hv : v < graph.nnodes)
    (h : Walks.Leads graph.nullLinks GLink.downnode v w) : w < graph.nnodes := by
  refine Walks.Leads.mem (U := Set.Iio graph.nnodes) (fun u _ l hl => ?_) hv h
  exact (graph.bounds l (GGraph.mem_downlink.mp (List.mem_filter.mp hl).1).1).2

theorem nulls_finite (hv : v < graph.nnodes) :
    {w | Walks.Leads graph.nullLinks GLink.downnode v w}.Finite :=
  (Set.finite_Iio graph.nnodes).subset fun _ hw => leads_nullLinks_lt hv hw

theorem depth_le (hv : v < graph.nnodes) : graph.depth v ≤ graph.nnodes := by
  have hsub : {w | Walks.Leads graph.nullLinks GLink.downnode v w} ⊆
      (Finset.range graph.nnodes : Set ℕ) :=
    fun w hw => Finset.mem_coe.mpr (Finset.mem_range.mpr (leads_nullLinks_lt hv hw))
  have hle := Set.ncard_le_ncard hsub (Finset.finite_toSet _)
  rwa [Set.ncard_coe_finset, Finset.card_range] at hle

theorem depth_lt (hacyclic : graph.NullAcyclic) (hl : l ∈ graph.downlink v)
    (hnull : l.label = labNull) (hne : l.downnode ≠ v) : graph.depth l.downnode < graph.depth v := by
  obtain ⟨hmem, rfl⟩ := GGraph.mem_downlink.mp hl
  refine hacyclic.ncard_lt (nulls_finite (graph.bounds l hmem).1) (List.mem_filter.mpr ⟨hl, ?_⟩)
  exact decide_eq_true ⟨hnull, hne⟩

end

/-! ## The table -/

section

variable {graph : GGraph κ δ} {v w m fuel : ℕ} {s s' : Boundaries}

/-- The set of a node before its visit. -/
def initial (v : ℕ) : List ℕ := if v = GGraph.endnode then [GGraph.endnode] else []

/-- The visit of a node has ended. -/
structure Finished (graph : GGraph κ δ) (s : Boundaries) (v : ℕ) : Prop where
  flagged : s.bstatus v = true
  mem : ∀ m, m ∈ s.miset v ↔ InBoundary graph v m

/-- The sets are in order, and empty but for that of the end before the visits. -/
structure Proper (s : Boundaries) : Prop where
  sorted : ∀ v, (s.miset v).Pairwise (· < ·)
  unknown : ∀ v, s.bstatus v = false → s.miset v = initial v

/-- What a visit leaves. -/
structure Keeping (graph : GGraph κ δ) (s s' : Boundaries) : Prop where
  flagged : ∀ v, s.bstatus v = true → s'.bstatus v = true
  miset : ∀ v, s.bstatus v = true → s'.miset v = s.miset v
  finished : ∀ v, s'.bstatus v = true → s.bstatus v = true ∨ Finished graph s' v

theorem Finished.of_keeping (h : Finished graph s v) (hkeep : Keeping graph s s') :
    Finished graph s' v where
  flagged := hkeep.flagged v h.flagged
  mem := by
    rw [hkeep.miset v h.flagged]
    exact h.mem

theorem Keeping.refl (s : Boundaries) : Keeping graph s s :=
  ⟨fun _ h => h, fun _ _ => rfl, fun _ h => .inl h⟩

/-- What a visit does. -/
structure Visiting (graph : GGraph κ δ) (v : ℕ) (s s' : Boundaries) : Prop where
  finished : Finished graph s' v
  proper : Proper s'
  keeping : Keeping graph s s'

/-- `visit` is right for the nodes from which null transitions lead to fewer than `fuel` nodes, if
the visits of those that it comes to have ended. -/
def VisitsBoundary (graph : GGraph κ δ) (visit : ℕ → Boundaries → Except Fault Boundaries)
    (fuel : ℕ) : Prop :=
  ∀ v s, v < graph.nnodes → graph.depth v < fuel → Proper s →
    (∀ w, s.bstatus w = true → graph.depth w ≤ graph.depth v → Finished graph s w) →
    ∃ s', visit v s = .ok s' ∧ Visiting graph v s s'

/-- What holds in the loop over the links of a node; the links in `seen` have been looked at. -/
structure Gathering (graph : GGraph κ δ) (v : ℕ) (seen : List (GLink κ δ)) (ok : Bool)
    (s : Boundaries) : Prop where
  proper : Proper s
  flagged : s.bstatus v = true
  finished : ∀ w, s.bstatus w = true → graph.depth w < graph.depth v → Finished graph s w
  ok : ok = true ↔ ∃ l ∈ seen, l.label ≠ labNull
  mem : ∀ m, m ∈ s.miset v ↔ m ∈ initial v ∨
    ∃ l ∈ seen, l.label = labNull ∧ l.downnode ≠ v ∧ InBoundary graph l.downnode m

/-- Another link than a null transition. -/
theorem Gathering.cons_label {seen : List (GLink κ δ)} {ok : Bool} {l : GLink κ δ}
    (h : Gathering graph v seen ok s) (hl : l.label ≠ labNull) :
    Gathering graph v (l :: seen) true s where
  proper := h.proper
  flagged := h.flagged
  finished := h.finished
  ok := ⟨fun _ => ⟨l, .head _, hl⟩, fun _ => rfl⟩
  mem m := by
    rw [h.mem]
    refine or_congr_right ⟨fun ⟨l', hl', hrest⟩ => ⟨l', .tail _ hl', hrest⟩, ?_⟩
    rintro ⟨l', _ | ⟨_, hl'⟩, hnull, hrest⟩
    · exact absurd hnull hl
    · exact ⟨l', hl', hnull, hrest⟩

/-- A null transition to a node whose visit has ended, or to the node itself. -/
theorem Gathering.cons_null {seen : List (GLink κ δ)} {ok : Bool} {l : GLink κ δ}
    (h : Gathering graph v seen ok s) (hl : l.label = labNull)
    (hdone : l.downnode ≠ v → Finished graph s l.downnode) :
    Gathering graph v (l :: seen) ok (s.union v l.downnode) := by
  have hself : (s.union v l.downnode).miset v = setUnion (s.miset v) (s.miset l.downnode) :=
    Function.update_self ..
  have hother : ∀ {w}, w ≠ v → (s.union v l.downnode).miset w = s.miset w := fun hne =>
    Function.update_of_ne hne ..
  exact {
    proper := {
      sorted := by
        intro w
        by_cases heq : w = v
        · rw [heq, hself]
          exact sorted_setUnion (h.proper.sorted v) (h.proper.sorted _)
        · rw [hother heq]
          exact h.proper.sorted w
      unknown := by
        intro w hw
        have hne : w ≠ v := by
          rintro rfl
          cases h.flagged.symm.trans hw
        rw [hother hne]
        exact h.proper.unknown w hw }
    flagged := h.flagged
    finished := by
      intro w hw hlt
      have hne : w ≠ v := by
        rintro rfl
        exact absurd hlt (lt_irrefl _)
      have hdone := h.finished w hw hlt
      exact ⟨hdone.flagged, hother hne ▸ hdone.mem⟩
    ok := by
      rw [h.ok]
      refine ⟨fun ⟨l', hl', hrest⟩ => ⟨l', .tail _ hl', hrest⟩, ?_⟩
      rintro ⟨l', _ | ⟨_, hl'⟩, hlabel⟩
      · exact absurd hl hlabel
      · exact ⟨l', hl', hlabel⟩
    mem := by
      intro m
      rw [hself, mem_setUnion]
      by_cases heq : l.downnode = v
      · rw [heq, or_self, h.mem]
        refine or_congr_right ⟨fun ⟨l', hl', hrest⟩ => ⟨l', .tail _ hl', hrest⟩, ?_⟩
        rintro ⟨l', _ | ⟨_, hl'⟩, hnull, hne, hrest⟩
        · exact absurd heq hne
        · exact ⟨l', hl', hnull, hne, hrest⟩
      · rw [h.mem, (hdone heq).mem]
        constructor
        · rintro ((hinit | ⟨l', hl', hrest⟩) | hb)
          · exact .inl hinit
          · exact .inr ⟨l', .tail _ hl', hrest⟩
          · exact .inr ⟨l, .head _, hl, heq, hb⟩
        · rintro (hinit | ⟨l', _ | ⟨_, hl'⟩, hnull, hne, hb⟩)
          · exact .inl (.inl hinit)
          · exact .inr hb
          · exact .inl (.inr ⟨l', hl', hnull, hne, hb⟩) }

/-- The end of the loop over the links of a node. -/
theorem Gathering.finish {seen : List (GLink κ δ)} {ok : Bool} (h : Gathering graph v seen ok s)
    (hseen : ∀ l, l ∈ seen ↔ l ∈ graph.downlink v) :
    Finished graph (if ok then s.add v v else s) v ∧ Proper (if ok then s.add v v else s) := by
  have hmem : ∀ m, m ∈ (if ok then s.add v v else s).miset v ↔ InBoundary graph v m := by
    intro m
    have hself : m ∈ (if ok then s.add v v else s).miset v ↔
        (ok = true ∧ m = v) ∨ m ∈ s.miset v := by
      cases ok with
      | false => simp
      | true =>
          simp only [if_true, true_and]
          rw [show (s.add v v).miset v = setAdd (s.miset v) v from Function.update_self .., mem_setAdd]
    have hinit : m ∈ initial v ↔ v = GGraph.endnode ∧ m = v := by
      unfold initial
      split
      case isTrue heq => simp [heq]
      case isFalse heq => simp [heq]
    rw [hself, h.mem, h.ok, hinit, inBoundary_iff]
    simp only [hseen]
    constructor
    · rintro (⟨hok, rfl⟩ | ⟨hv, rfl⟩ | hrest)
      · exact .inl ⟨rfl, .inr hok⟩
      · exact .inl ⟨rfl, .inl hv⟩
      · exact .inr hrest
    · rintro (⟨rfl, hv | hok⟩ | hrest)
      · exact .inr (.inl ⟨hv, rfl⟩)
      · exact .inl ⟨hok, rfl⟩
      · exact .inr (.inr hrest)
  have hbstatus : (if ok then s.add v v else s).bstatus = s.bstatus := by
    split <;> rfl
  have hother : ∀ {w}, w ≠ v → (if ok then s.add v v else s).miset w = s.miset w := by
    intro w hne
    split
    · exact Function.update_of_ne hne ..
    · rfl
  refine ⟨⟨hbstatus ▸ h.flagged, hmem⟩, ⟨fun w => ?_, fun w hw => ?_⟩⟩
  · by_cases heq : w = v
    · subst heq
      split
      · rw [show (s.add w w).miset w = setAdd (s.miset w) w from Function.update_self ..]
        exact sorted_setAdd (h.proper.sorted w)
      · exact h.proper.sorted w
    · rw [hother heq]
      exact h.proper.sorted w
  · rw [hbstatus] at hw
    have hne : w ≠ v := by
      rintro rfl
      cases h.flagged.symm.trans hw
    rw [hother hne]
    exact h.proper.unknown w hw

/-- What the loop over the links of a node keeps of the sets of other nodes. -/
structure KeepingOthers (graph : GGraph κ δ) (v : ℕ) (s s' : Boundaries) : Prop where
  flagged : ∀ w, s.bstatus w = true → s'.bstatus w = true
  miset : ∀ w, s.bstatus w = true → w ≠ v → s'.miset w = s.miset w
  finished : ∀ w, s'.bstatus w = true → w ≠ v → s.bstatus w = true ∨ Finished graph s' w

theorem KeepingOthers.trans {s'' : Boundaries} (h : KeepingOthers graph v s s')
    (h' : KeepingOthers graph v s' s'') : KeepingOthers graph v s s'' where
  flagged w hw := h'.flagged w (h.flagged w hw)
  miset w hw hne := (h'.miset w (h.flagged w hw) hne).trans (h.miset w hw hne)
  finished w hw hne := by
    rcases h'.finished w hw hne with hw' | hdone
    · refine (h.finished w hw' hne).imp_right fun hdone => ⟨hw, fun m => ?_⟩
      rw [h'.miset w hw' hne]
      exact hdone.mem m
    · exact .inr hdone

/-- Only the set of the node changes. -/
theorem keepingOthers_update {s' : Boundaries} (hb : s'.bstatus = s.bstatus)
    (hm : ∀ w, w ≠ v → s'.miset w = s.miset w) : KeepingOthers graph v s s' where
  flagged _ hw := hb ▸ hw
  miset w _ hne := hm w hne
  finished _ hw _ := .inl (hb ▸ hw)

theorem Keeping.others (h : Keeping graph s s') : KeepingOthers graph v s s' where
  flagged := h.flagged
  miset w hw _ := h.miset w hw
  finished w hw _ := h.finished w hw

/-- The loop over the links of a node, by induction on those that remain. -/
theorem boundaryLoop_ok {visit : ℕ → Boundaries → Except Fault Boundaries}
    (hvisit : VisitsBoundary graph visit fuel)
    (hself : ∀ s, s.bstatus v = true → visit v s = .ok s) (hacyclic : graph.NullAcyclic)
    (hfuel : graph.depth v ≤ fuel) {rest seen : List (GLink κ δ)} {ok : Bool}
    (h : Gathering graph v seen ok s) (hout : graph.downlink v = seen.reverse ++ rest) :
    ∃ s', boundaryLoop visit v rest ok s = .ok s' ∧ Finished graph s' v ∧ Proper s' ∧
      KeepingOthers graph v s s' := by
  induction rest generalizing seen ok s with
  | nil =>
      have hseen : ∀ l, l ∈ seen ↔ l ∈ graph.downlink v := fun l => by
        rw [hout, List.append_nil, List.mem_reverse]
      obtain ⟨hdone, hproper⟩ := h.finish hseen
      refine ⟨_, rfl, hdone, hproper, keepingOthers_update ?_ fun w hne => ?_⟩
      · split <;> rfl
      · split
        · exact Function.update_of_ne hne ..
        · rfl
  | cons l rest ih =>
      have hl : l ∈ graph.downlink v := by simp [hout]
      have hout' : graph.downlink v = (l :: seen).reverse ++ rest := by simp [hout]
      unfold boundaryLoop
      by_cases hlabel : l.label ≠ labNull
      · rw [if_pos hlabel]
        exact ih (h.cons_label hlabel) hout'
      rw [if_neg hlabel]
      have hnull : l.label = labNull := not_not.mp hlabel
      have hlook : ∃ s₁, visit l.downnode s = .ok s₁ ∧ Gathering graph v seen ok s₁ ∧
          (l.downnode ≠ v → Finished graph s₁ l.downnode) ∧ KeepingOthers graph v s s₁ := by
        by_cases heq : l.downnode = v
        · exact ⟨s, heq ▸ hself s h.flagged, h, fun hne => absurd heq hne, (Keeping.refl s).others⟩
        have hlt := depth_lt hacyclic hl hnull heq
        obtain ⟨s₁, hok, hv⟩ := hvisit l.downnode s
          (graph.bounds l (GGraph.mem_downlink.mp hl).1).2 (hlt.trans_le hfuel) h.proper
          fun w hw hle => h.finished w hw (hle.trans_lt hlt)
        refine ⟨s₁, hok, ?_, fun _ => hv.finished, hv.keeping.others⟩
        exact {
          proper := hv.proper
          flagged := hv.keeping.flagged v h.flagged
          finished := by
            intro w hw hwlt
            rcases hv.keeping.finished w hw with hw | hdone
            · exact (h.finished w hw hwlt).of_keeping hv.keeping
            · exact hdone
          ok := h.ok
          mem := by
            rw [hv.keeping.miset v h.flagged]
            exact h.mem }
      obtain ⟨s₁, hok, h₁, hdone, hkeep⟩ := hlook
      obtain ⟨s', hloop, hfin, hproper, hkeep'⟩ := ih (h₁.cons_null hnull hdone) hout'
      have hunion : KeepingOthers graph v s₁ (s₁.union v l.downnode) :=
        keepingOthers_update rfl fun w hne => Function.update_of_ne hne ..
      refine ⟨s', ?_, hfin, hproper, hkeep.trans (hunion.trans hkeep')⟩
      simp only [hok, bind, Except.bind]
      exact hloop

/-- **A visit is right**, by induction on the bound of the depth. -/
theorem gramCleanupBoundary_ok (hacyclic : graph.NullAcyclic) (fuel : ℕ) :
    VisitsBoundary graph (gramCleanupBoundary graph fuel) fuel := by
  induction fuel with
  | zero => exact fun v s _ hfuel => absurd hfuel (Nat.not_lt_zero _)
  | succ fuel ih =>
      intro v s hv hfuel hproper hfinished
      unfold gramCleanupBoundary
      by_cases hflag : s.bstatus v = true
      · rw [if_pos hflag]
        exact ⟨s, rfl, hfinished v hflag le_rfl, hproper, Keeping.refl s⟩
      rw [if_neg hflag]
      set s₀ : Boundaries := { s with bstatus := Function.update s.bstatus v true }
      have hself₀ : s₀.bstatus v = true := Function.update_self ..
      have hold : ∀ {w}, s₀.bstatus w = true → w ≠ v → s.bstatus w = true := fun hw hne =>
        (Function.update_of_ne hne ..).symm.trans hw
      have hnew : ∀ {w}, s.bstatus w = true → s₀.bstatus w = true ∧ w ≠ v := by
        intro w hw
        have hne : w ≠ v := by
          rintro rfl
          exact hflag hw
        exact ⟨(Function.update_of_ne hne ..).trans hw, hne⟩
      have hpos : 0 < graph.depth v :=
        (Set.ncard_pos (nulls_finite hv)).mpr ⟨v, Walks.leads_self v⟩
      have hself : ∀ s', s'.bstatus v = true → gramCleanupBoundary graph fuel v s' = .ok s' := by
        intro s' hs'
        obtain ⟨fuel, rfl⟩ := Nat.exists_eq_succ_of_ne_zero (show fuel ≠ 0 by omega)
        unfold gramCleanupBoundary
        rw [if_pos hs']
      have hgather : Gathering graph v [] false s₀ := {
        proper := {
          sorted := hproper.sorted
          unknown := by
            intro w hw
            have hne : w ≠ v := by
              rintro rfl
              cases hself₀.symm.trans hw
            exact hproper.unknown w ((Function.update_of_ne hne ..).symm.trans hw) }
        flagged := hself₀
        finished := by
          intro w hw hlt
          have hne : w ≠ v := by
            rintro rfl
            exact absurd hlt (lt_irrefl _)
          have hdone := hfinished w (hold hw hne) hlt.le
          exact ⟨hw, hdone.mem⟩
        ok := by simp
        mem := by
          intro m
          rw [show s₀.miset v = initial v from
            hproper.unknown v (eq_false_of_ne_true hflag)]
          simp }
      obtain ⟨s', hloop, hdone, hproper', hkeep⟩ := boundaryLoop_ok ih hself hacyclic
        (Nat.lt_succ_iff.mp hfuel) hgather rfl
      refine ⟨s', hloop, hdone, hproper', ?_⟩
      exact {
        flagged := fun w hw => hkeep.flagged w (hnew hw).1
        miset := fun w hw => hkeep.miset w (hnew hw).1 (hnew hw).2
        finished := by
          intro w hw
          by_cases heq : w = v
          · exact .inr (heq ▸ hdone)
          · exact (hkeep.finished w hw heq).imp_left fun hw₀ => hold hw₀ heq }

/-- **The e-boundary table is right.** -/
theorem boundaryTable_ok (hacyclic : graph.NullAcyclic) :
    ∃ s, boundaryTable graph = .ok s ∧ Proper s ∧ ∀ v < graph.nnodes, Finished graph s v := by
  let I : List ℕ → Boundaries → Prop := fun seen s => Proper s ∧
    (∀ v, s.bstatus v = true → Finished graph s v) ∧ ∀ v ∈ seen, s.bstatus v = true
  have h0 : I [] (Boundaries.add ⟨fun _ => false, fun _ => []⟩ GGraph.endnode GGraph.endnode) := by
    have hset : ∀ v, (Boundaries.add ⟨fun _ => false, fun _ => []⟩ GGraph.endnode
        GGraph.endnode).miset v = initial v := by
      intro v
      simp only [Boundaries.add, Function.update_apply, initial]
      split <;> rfl
    refine ⟨⟨fun v => ?_, fun v _ => hset v⟩, fun v hv => ?_, fun v hv => ?_⟩
    · rw [hset, initial]
      split <;> simp
    · cases hv
    · cases hv
  have hstep : ∀ seen s, ∀ v ∈ (List.range graph.nnodes).reverse, I seen s →
      ∃ s', gramCleanupBoundary graph (graph.nnodes + 1) v s = .ok s' ∧ I (v :: seen) s' := by
    intro seen s v hv ⟨hproper, hdone, hseen⟩
    have hv' : v < graph.nnodes := List.mem_range.mp (List.mem_reverse.mp hv)
    obtain ⟨s', hok, h'⟩ := gramCleanupBoundary_ok hacyclic (graph.nnodes + 1) v s hv'
      (Nat.lt_succ_of_le (depth_le hv')) hproper fun w hw _ => hdone w hw
    refine ⟨s', hok, h'.proper, fun w hw => ?_, ?_⟩
    · rcases h'.keeping.finished w hw with hw' | hfin
      · exact (hdone w hw').of_keeping h'.keeping
      · exact hfin
    · exact List.forall_mem_cons.mpr ⟨h'.finished.flagged,
        fun w hw => h'.keeping.flagged w (hseen w hw)⟩
  obtain ⟨s, htable, hproper, hdone, hseen⟩ := foldlM_ok I h0 hstep
  refine ⟨s, htable, hproper, fun v hv => hdone v (hseen v ?_)⟩
  rw [List.reverse_reverse, List.mem_range]
  exact hv

end

end Lush.Graph
