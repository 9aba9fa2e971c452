import Lush.Graph.Transform

/-!
# What the search builds

`Inv` holds between the steps of `g-transform-sub` and `g-compose-sub`, for the set of the nodes
that are being visited.  A node that is marked does not lead to the end; one that has a counterpart
and is not being visited has all its links that lead on to the end (`Complete`).  A visit keeps the
invariant (`buildSub_spec`), by induction on the number of nodes that are not known yet.

With the invariant, the paths of the new graph are those of the frame (`buildGraph_paths`).
-/

namespace Lush.Graph

open Walks (Walk Leads)

variable {κ δ ν ε : Type} {F : Frame κ δ ν ε} {start stop : ν}

/-- What the search relies on: an edge leaves one node, and is listed once. -/
structure Frame.Proper (F : Frame κ δ ν ε) : Prop where
  apart : ∀ {v w : ν} {e : ε}, e ∈ F.out v → e ∈ F.out w → v = w
  nodup : ∀ v, (F.out v).Nodup

/-- A link has the fields that are built for an edge. -/
structure Carries (F : Frame κ δ ν ε) (e : ε) (l : GLink κ δ) : Prop where
  cost : l.cost = F.cost e
  label : l.label = F.label e
  meaning : l.meaning = F.meaning e
  data : l.data = F.data e

/-- All edges of a node that lead on to the end have been built. -/
def Complete (F : Frame κ δ ν ε) (stop : ν) (s : Build κ δ ν) (origin : ℕ → Option ε) (v : ν) :
    Prop :=
  ∀ e ∈ F.out v, Leads F.out F.dst (F.dst e) stop → ∃ l ∈ s.ngraph.links, origin l.id = some e

/-- What holds while the nodes `S` are visited; `origin` says for which edge a link was built. -/
structure Inv (F : Frame κ δ ν ε) (start stop : ν) (S : Set ν) (s : Build κ δ ν)
    (origin : ℕ → Option ε) : Prop where
  named : ∀ {v w n}, s.nnodm v = some n → s.nnodm w = some n → v = w
  bound : ∀ {v n}, s.nnodm v = some n → n < s.ngraph.nnodes
  start_named : s.nnodm start = some GGraph.startnode
  stop_named : s.nnodm stop = some GGraph.endnode
  stop_not_mem : stop ∉ S
  pending : ∀ {v}, s.nnodf v = .pending → v ∈ S
  visited : ∀ {v}, v ∈ S → s.nnodf v = .pending ∨ s.nnodm v ≠ none
  dead : ∀ {v}, s.nnodf v = .dead → ¬Leads F.out F.dst v stop
  link : ∀ {l}, l ∈ s.ngraph.links → ∃ v e, origin l.id = some e ∧ e ∈ F.out v ∧
    s.nnodm v = some l.upnode ∧ s.nnodm (F.dst e) = some l.downnode ∧ Carries F e l
  once : ∀ {l l'}, l ∈ s.ngraph.links → l' ∈ s.ngraph.links → origin l.id = origin l'.id → l = l'
  complete : ∀ {v}, s.nnodm v ≠ none → v ∉ S → v ≠ stop → Complete F stop s origin v

/-- The node is not known yet. -/
def Fresh (s : Build κ δ ν) (v : ν) : Prop := s.nnodf v = .unknown ∧ s.nnodm v = none

/-- No link has been built for the edges of a node, except for those in the list. -/
def BuiltAmong (F : Frame κ δ ν ε) (s : Build κ δ ν) (origin : ℕ → Option ε) (v : ν)
    (done : List ε) : Prop :=
  ∀ l ∈ s.ngraph.links, ∀ e ∈ F.out v, origin l.id = some e → e ∈ done

/-- What a visit leaves: no link is built for an edge of the nodes `S`. -/
structure Extends (F : Frame κ δ ν ε) (S : Set ν) (s s' : Build κ δ ν)
    (origin origin' : ℕ → Option ε) : Prop where
  names : ∀ {v n}, s.nnodm v = some n → s'.nnodm v = some n
  links : ∀ {l}, l ∈ s.ngraph.links → l ∈ s'.ngraph.links ∧ origin' l.id = origin l.id
  fresh : ∀ {v}, Fresh s' v → Fresh s v
  others : ∀ {l}, l ∈ s'.ngraph.links → l ∉ s.ngraph.links → ∀ e, origin' l.id = some e →
    ∀ v ∈ S, e ∉ F.out v

section

variable {S : Set ν} {s s' s'' : Build κ δ ν} {origin origin' origin'' : ℕ → Option ε} {v : ν}
  {done : List ε}

theorem Extends.refl (S : Set ν) (s : Build κ δ ν) (origin : ℕ → Option ε) :
    Extends F S s s origin origin :=
  ⟨id, fun h => ⟨h, rfl⟩, id, fun h h' => absurd h h'⟩

theorem Extends.trans (h : Extends F S s s' origin origin')
    (h' : Extends F S s' s'' origin' origin'') : Extends F S s s'' origin origin'' where
  names hv := h'.names (h.names hv)
  links hl := ⟨(h'.links (h.links hl).1).1,
    (h'.links (h.links hl).1).2.trans (h.links hl).2⟩
  fresh hv := h.fresh (h'.fresh hv)
  others := by
    intro l hl hnot e he v hv
    by_cases hmid : l ∈ s'.ngraph.links
    · exact h.others hmid hnot e ((h'.links hmid).2 ▸ he) v hv
    · exact h'.others hl hmid e he v hv

theorem Extends.mono {T : Set ν} (h : Extends F T s s' origin origin') (hsub : S ⊆ T) :
    Extends F S s s' origin origin' :=
  { h with others := fun hl hnot e he v hv => h.others hl hnot e he v (hsub hv) }

theorem Extends.named (h : Extends F S s s' origin origin') (hv : s.nnodm v ≠ none) :
    s'.nnodm v ≠ none := by
  obtain ⟨n, hn⟩ := Option.ne_none_iff_exists'.mp hv
  rw [h.names hn]
  exact Option.some_ne_none n

theorem Complete.of_extends (h : Complete F stop s origin v)
    (hext : Extends F S s s' origin origin') : Complete F stop s' origin' v := by
  intro e he hleads
  obtain ⟨l, hl, horigin⟩ := h e he hleads
  exact ⟨l, (hext.links hl).1, (hext.links hl).2.trans horigin⟩

theorem BuiltAmong.of_extends (h : BuiltAmong F s origin v done)
    (hext : Extends F S s s' origin origin') (hv : v ∈ S) : BuiltAmong F s' origin' v done := by
  intro l hl e he horigin
  by_cases hmem : l ∈ s.ngraph.links
  · exact h l hmem e he ((hext.links hmem).2 ▸ horigin)
  · exact absurd he (hext.others hl hmem e horigin v hv)

/-- A node without counterpart has no links. -/
theorem Inv.builtAmong_nil (h : Inv F start stop S s origin) (hF : F.Proper)
    (hv : s.nnodm v = none) : BuiltAmong F s origin v [] := by
  intro l hl e he horigin
  obtain ⟨w, e', horigin', he', hup, -⟩ := h.link hl
  obtain rfl : e = e' := Option.some.inj (horigin.symm.trans horigin')
  rw [hF.apart he he', hup] at hv
  cases hv

/-- A node that is not known is not being visited. -/
theorem Inv.not_mem (h : Inv F start stop S s origin) (hv : Fresh s v) : v ∉ S := by
  intro hmem
  rcases h.visited hmem with hflag | hname
  · exact absurd (hv.1.symm.trans hflag) (by decide)
  · exact hname hv.2

/-- A link is built for an edge that has none. -/
theorem Inv.build (h : Inv F start stop (insert v S) s origin) (hF : F.Proper) (hnot : v ∉ S)
    {e : ε} {done : List ε} {gnu gnd : ℕ} (he : e ∈ F.out v) (hup : s.nnodm v = some gnu)
    (hdown : s.nnodm (F.dst e) = some gnd) (hdone : BuiltAmong F s origin v done)
    (hnew : e ∉ done) :
    ∃ ngraph origin', s.ngraph.linkm gnu gnd (F.cost e) (F.label e) (F.meaning e) (F.data e) =
        .ok ngraph ∧
      Inv F start stop (insert v S) { s with ngraph } origin' ∧
      Extends F S s { s with ngraph } origin origin' ∧
      BuiltAmong F { s with ngraph } origin' v (e :: done) ∧
      ∃ l ∈ ngraph.links, origin' l.id = some e := by
  have hend : gnu ≠ GGraph.endnode := by
    rintro rfl
    exact h.stop_not_mem (.inl (h.named h.stop_named hup))
  obtain ⟨ngraph, hlink, hnodes, hnlinks, hlinks⟩ :=
    GGraph.linkm_ok (F.cost e) (F.label e) (F.meaning e) (F.data e) hend (h.bound hup)
      (h.bound hdown)
  let origin' := Function.update origin s.ngraph.nlinks (some e)
  have hself : origin' s.ngraph.nlinks = some e := Function.update_self ..
  have hold : ∀ {l}, l ∈ s.ngraph.links → origin' l.id = origin l.id := fun hl =>
    Function.update_of_ne (s.ngraph.ids _ hl).ne ..
  -- no older link is built for this edge
  have hunbuilt : ∀ {l}, l ∈ s.ngraph.links → origin' l.id ≠ some e := by
    intro l hl horigin
    exact hnew (hdone l hl e he (hold hl ▸ horigin))
  have hext : Extends F S s { s with ngraph } origin origin' := {
    names := id
    links := fun hl => ⟨hlinks ▸ .tail _ hl, hold hl⟩
    fresh := id
    others := by
      intro l hl hnmem e' horigin w hw he'
      rw [hlinks] at hl
      rcases hl with _ | ⟨_, hl⟩
      · obtain rfl : e = e' := Option.some.inj (hself.symm.trans horigin)
        exact hnot (hF.apart he he' ▸ hw)
      · exact hnmem hl }
  refine ⟨ngraph, origin', hlink, ?_, hext, ?_, _, hlinks ▸ List.mem_cons_self, hself⟩
  · exact {
      named := h.named
      bound := hnodes ▸ h.bound
      start_named := h.start_named
      stop_named := h.stop_named
      stop_not_mem := h.stop_not_mem
      pending := h.pending
      visited := h.visited
      dead := h.dead
      link := by
        intro l hl
        rw [hlinks] at hl
        rcases hl with _ | ⟨_, hl⟩
        · exact ⟨v, e, hself, he, hup, hdown, rfl, rfl, rfl, rfl⟩
        · obtain ⟨w, e', horigin, hrest⟩ := h.link hl
          exact ⟨w, e', (hold hl).trans horigin, hrest⟩
      once := by
        intro l l' hl hl' heq
        rw [hlinks] at hl hl'
        rcases hl with _ | ⟨_, hl⟩ <;> rcases hl' with _ | ⟨_, hl'⟩
        · rfl
        · exact absurd (heq.symm.trans hself) (hunbuilt hl')
        · exact absurd (heq.trans hself) (hunbuilt hl)
        · exact h.once hl hl' ((hold hl).symm.trans (heq.trans (hold hl')))
      complete := fun hw hwS hne => (h.complete hw hwS hne).of_extends hext }
  · intro l hl e' he' horigin
    rw [hlinks] at hl
    rcases hl with _ | ⟨_, hl⟩
    · rw [Option.some.inj (horigin.symm.trans hself)]
      exact .head _
    · exact .tail _ (hdone l hl e' he' ((hold hl).symm.trans horigin))

end

/-! ## Flags -/

section

variable [DecidableEq ν] {S : Set ν} {s : Build κ δ ν} {origin : ℕ → Option ε} {v w : ν}
  {flag : Flag}

@[simp] theorem setFlag_self : (s.setFlag v flag).nnodf v = flag := Function.update_self ..

theorem setFlag_of_ne (h : w ≠ v) : (s.setFlag v flag).nnodf w = s.nnodf w :=
  Function.update_of_ne h ..

@[simp] theorem setFlag_nnodm : (s.setFlag v flag).nnodm = s.nnodm := rfl

@[simp] theorem setFlag_ngraph : (s.setFlag v flag).ngraph = s.ngraph := rfl

/-- A flag that is not about an unknown node is no visit. -/
theorem extends_setFlag (h : flag = .unknown → s.nnodm v ≠ none) :
    Extends F S s (s.setFlag v flag) origin origin where
  names := id
  links hl := ⟨hl, rfl⟩
  fresh := by
    intro w hw
    by_cases heq : w = v
    · subst heq
      exact absurd hw.2 (h (by simpa using hw.1))
    · exact ⟨(setFlag_of_ne heq).symm.trans hw.1, hw.2⟩
  others hl hnot := absurd hl hnot

/-- A visit begins. -/
theorem Inv.setPending (h : Inv F start stop S s origin) (hv : s.nnodm v = none) :
    Inv F start stop (insert v S) (s.setFlag v .pending) origin where
  named := h.named
  bound := h.bound
  start_named := h.start_named
  stop_named := h.stop_named
  stop_not_mem := by
    rintro (rfl | hmem)
    · exact absurd (hv.symm.trans h.stop_named) (by simp)
    · exact h.stop_not_mem hmem
  pending := by
    intro w hw
    by_cases heq : w = v
    · exact .inl heq
    · exact .inr (h.pending ((setFlag_of_ne heq).symm.trans hw))
  visited := by
    rintro w (rfl | hw)
    · exact .inl setFlag_self
    · by_cases heq : w = v
      · subst heq
        exact .inl setFlag_self
      · exact (h.visited hw).imp_left (setFlag_of_ne heq).trans
  dead := by
    intro w hw
    by_cases heq : w = v
    · subst heq
      simp at hw
    · exact h.dead ((setFlag_of_ne heq).symm.trans hw)
  link := h.link
  once := h.once
  complete := fun hw hnot hne => h.complete hw (fun hmem => hnot (.inr hmem)) hne

/-- A visit ends. -/
theorem Inv.endVisit (h : Inv F start stop (insert v S) s origin) (hflag : flag ≠ .pending)
    (hdead : flag = .dead → ¬Leads F.out F.dst v stop) (hnot : v ∉ S)
    (hcomplete : Complete F stop s origin v) :
    Inv F start stop S (s.setFlag v flag) origin where
  named := h.named
  bound := h.bound
  start_named := h.start_named
  stop_named := h.stop_named
  stop_not_mem hmem := h.stop_not_mem (.inr hmem)
  pending := by
    intro w hw
    by_cases heq : w = v
    · subst heq
      exact absurd (setFlag_self.symm.trans hw) hflag
    · exact (h.pending ((setFlag_of_ne heq).symm.trans hw)).resolve_left heq
  visited := by
    intro w hw
    have hne : w ≠ v := ne_of_mem_of_not_mem hw hnot
    exact (h.visited (.inr hw)).imp_left (setFlag_of_ne hne).trans
  dead := by
    intro w hw
    by_cases heq : w = v
    · subst heq
      exact hdead (setFlag_self.symm.trans hw)
    · exact h.dead ((setFlag_of_ne heq).symm.trans hw)
  link := h.link
  once := h.once
  complete := by
    intro w hw hwS hne
    by_cases heq : w = v
    · subst heq
      exact hcomplete
    · exact h.complete hw (by rintro (rfl | hmem) <;> contradiction) hne

/-- A node that is being visited has got a counterpart. -/
theorem Inv.setUnknown (h : Inv F start stop S s origin) (hv : s.nnodm v ≠ none) :
    Inv F start stop S (s.setFlag v .unknown) origin where
  named := h.named
  bound := h.bound
  start_named := h.start_named
  stop_named := h.stop_named
  stop_not_mem := h.stop_not_mem
  pending := by
    intro w hw
    by_cases heq : w = v
    · subst heq
      simp at hw
    · exact h.pending ((setFlag_of_ne heq).symm.trans hw)
  visited := by
    intro w hw
    by_cases heq : w = v
    · subst heq
      exact .inr hv
    · exact (h.visited hw).imp_left (setFlag_of_ne heq).trans
  dead := by
    intro w hw
    by_cases heq : w = v
    · subst heq
      simp at hw
    · exact h.dead ((setFlag_of_ne heq).symm.trans hw)
  link := h.link
  once := h.once
  complete := h.complete

/-! ## Nodes and links -/

@[simp] theorem counterpart_nnodf : (s.counterpart v).2.nnodf = s.nnodf := by
  unfold Build.counterpart
  split <;> rfl

@[simp] theorem counterpart_links : (s.counterpart v).2.ngraph.links = s.ngraph.links := by
  unfold Build.counterpart
  split <;> rfl

theorem counterpart_of_named {n : ℕ} (hv : s.nnodm v = some n) : s.counterpart v = (n, s) := by
  unfold Build.counterpart
  rw [hv]

theorem counterpart_of_unnamed (hv : s.nnodm v = none) :
    s.counterpart v = (s.ngraph.nnodes,
      { s with
        ngraph := s.ngraph.newnode.2
        nnodm := Function.update s.nnodm v (some s.ngraph.nnodes) }) := by
  unfold Build.counterpart
  rw [hv]
  rfl

theorem counterpart_nnodm : (s.counterpart v).2.nnodm v = some (s.counterpart v).1 := by
  cases hv : s.nnodm v with
  | some n => rw [counterpart_of_named hv, hv]
  | none =>
      rw [counterpart_of_unnamed hv]
      exact Function.update_self ..

/-- Other nodes keep what they had. -/
theorem counterpart_names {n : ℕ} (hw : s.nnodm w = some n) :
    (s.counterpart v).2.nnodm w = some n := by
  cases hv : s.nnodm v with
  | some m => rwa [counterpart_of_named hv]
  | none =>
      have hne : w ≠ v := by
        rintro rfl
        rw [hv] at hw
        cases hw
      rw [counterpart_of_unnamed hv]
      exact (Function.update_of_ne hne ..).trans hw

theorem extends_counterpart : Extends F S s (s.counterpart v).2 origin origin where
  names := counterpart_names
  links hl := ⟨by rwa [counterpart_links], rfl⟩
  fresh := by
    rintro w ⟨hflag, hname⟩
    refine ⟨by simpa using hflag, ?_⟩
    by_contra hne
    obtain ⟨n, hn⟩ := Option.ne_none_iff_exists'.mp hne
    exact absurd ((counterpart_names hn).symm.trans hname) (Option.some_ne_none n)
  others := by
    intro l hl hnot
    rw [counterpart_links] at hl
    exact absurd hl hnot

/-- A node that is being visited gets a counterpart. -/
theorem Inv.counterpart (h : Inv F start stop S s origin) (hv : v ∈ S) :
    Inv F start stop S (s.counterpart v).2 origin := by
  cases hname : s.nnodm v with
  | some n => rwa [counterpart_of_named hname]
  | none =>
      have hother : ∀ {w n}, s.nnodm w = some n →
          Function.update s.nnodm v (some s.ngraph.nnodes) w = some n := by
        intro w n hw
        have := counterpart_names (v := v) hw
        rwa [counterpart_of_unnamed hname] at this
      have hupdate : ∀ {w n}, Function.update s.nnodm v (some s.ngraph.nnodes) w = some n →
          (w = v ∧ n = s.ngraph.nnodes) ∨ s.nnodm w = some n := by
        intro w n hw
        rw [Function.update_apply] at hw
        split at hw
        case isTrue heq => exact .inl ⟨heq, (Option.some.inj hw).symm⟩
        case isFalse => exact .inr hw
      rw [counterpart_of_unnamed hname]
      exact {
        named := by
          intro w w' n hw hw'
          rcases hupdate hw with ⟨rfl, rfl⟩ | hold <;> rcases hupdate hw' with ⟨rfl, heq⟩ | hold'
          · rfl
          · exact absurd rfl (h.bound hold').ne
          · exact absurd heq (h.bound hold).ne
          · exact h.named hold hold'
        bound := by
          intro w n hw
          rcases hupdate hw with ⟨-, rfl⟩ | hw
          · exact Nat.lt_succ_self _
          · exact (h.bound hw).trans (Nat.lt_succ_self _)
        start_named := hother h.start_named
        stop_named := hother h.stop_named
        stop_not_mem := h.stop_not_mem
        pending := h.pending
        visited := by
          intro w hw
          refine (h.visited hw).imp_right fun hne => ?_
          obtain ⟨n, hn⟩ := Option.ne_none_iff_exists'.mp hne
          exact fun hnone => Option.some_ne_none n ((hother hn).symm.trans hnone)
        dead := h.dead
        link := by
          intro l hl
          obtain ⟨w, e, horigin, he, hup, hdown, hcarries⟩ := h.link hl
          exact ⟨w, e, horigin, he, hother hup, hother hdown, hcarries⟩
        once := h.once
        complete := by
          intro w hw hwS hne
          refine h.complete (fun hnone => hw ?_) hwS hne
          exact (Function.update_of_ne (ne_of_mem_of_not_mem hv hwS).symm ..).trans hnone }

end

/-! ## The search -/

section

variable [DecidableEq ν] {S U : Set ν} {s s' : Build κ δ ν} {origin origin' : ℕ → Option ε} {v : ν}
  {visit : ν → Build κ δ ν → Except Fault (Bool × Build κ δ ν)} {fuel : ℕ}

/-- What the visit of a node has done. -/
structure Visited (F : Frame κ δ ν ε) (start stop : ν) (S : Set ν) (v : ν)
    (s s' : Build κ δ ν) (origin origin' : ℕ → Option ε) (reachable : Bool) : Prop where
  inv : Inv F start stop (insert v S) s' origin'
  extend : Extends F S s s' origin origin'
  complete : Complete F stop s' origin' v
  unreachable : reachable = false → ¬Leads F.out F.dst v stop
  named : reachable = true → s'.nnodm v ≠ none

/-- `visit` is right for the nodes of `U` when at most `fuel` of them are not known. -/
def Visits (F : Frame κ δ ν ε) (start stop : ν) (U : Set ν)
    (visit : ν → Build κ δ ν → Except Fault (Bool × Build κ δ ν)) (fuel : ℕ) : Prop :=
  ∀ (S : Set ν) (v : ν) (s : Build κ δ ν) (origin : ℕ → Option ε), v ∈ U → v ∉ S →
    Inv F start stop (insert v S) s origin → BuiltAmong F s origin v [] →
    {w ∈ U | Fresh s w}.ncard < fuel →
    ∃ reachable s' origin', visit v s = .ok (reachable, s') ∧
      Visited F start stop S v s s' origin origin' reachable

omit [DecidableEq ν] in
theorem Extends.ncard_le (h : Extends F S s s' origin origin') (hU : U.Finite) :
    {w ∈ U | Fresh s' w}.ncard ≤ {w ∈ U | Fresh s w}.ncard :=
  Set.ncard_le_ncard (fun _ hw => ⟨hw.1, h.fresh hw.2⟩) (hU.subset (Set.sep_subset ..))

/-- A node whose visit begins is known. -/
theorem ncard_setPending_lt (hU : U.Finite) (hvU : v ∈ U) (hv : Fresh s v) :
    {w ∈ U | Fresh (s.setFlag v .pending) w}.ncard < {w ∈ U | Fresh s w}.ncard := by
  apply Set.ncard_lt_ncard _ (hU.subset (Set.sep_subset ..))
  have hsub : {w ∈ U | Fresh (s.setFlag v .pending) w} ⊆ {w ∈ U | Fresh s w} := by
    rintro w ⟨hw, hfresh⟩
    have hne : w ≠ v := by
      rintro rfl
      exact absurd (setFlag_self.symm.trans hfresh.1) (by decide)
    exact ⟨hw, (setFlag_of_ne hne).symm.trans hfresh.1, hfresh.2⟩
  refine hsub.ssubset_of_mem_notMem (a := v) ⟨hvU, hv⟩ fun hmem => ?_
  exact absurd (setFlag_self.symm.trans hmem.2.1) (by decide)

/-- Looking at a node finds its counterpart, or that it does not lead to the end. -/
theorem explore_ok (hvisit : Visits F start stop U visit fuel) (hF : F.Proper) (hU : U.Finite)
    (hvU : v ∈ U) (h : Inv F start stop S s origin)
    (hfuel : {w ∈ U | Fresh s w}.ncard ≤ fuel) :
    ∃ gnd s' origin', explore visit v s = .ok (gnd, s') ∧ Inv F start stop S s' origin' ∧
      Extends F S s s' origin origin' ∧ (gnd = none → ¬Leads F.out F.dst v stop) ∧
      ∀ n, gnd = some n → s'.nnodm v = some n := by
  unfold explore
  by_cases hpending : s.nnodf v = .pending
  · -- the node is above us
    rw [if_pos hpending]
    have hmem := h.pending hpending
    have hname : (s.counterpart v).2.nnodm v ≠ none := by
      rw [counterpart_nnodm]
      exact Option.some_ne_none _
    refine ⟨_, _, origin, rfl, (h.counterpart hmem).setUnknown hname,
      extends_counterpart.trans (extends_setFlag fun _ => hname), fun hnone => ?_, ?_⟩
    · cases hnone
    · rintro n ⟨⟩
      exact counterpart_nnodm
  rw [if_neg hpending]
  cases hname : s.nnodm v with
  | some n =>
      refine ⟨_, _, origin, rfl, h, Extends.refl .., fun hnone => ?_, ?_⟩
      · cases hnone
      · rintro m ⟨⟩
        exact hname
  | none =>
      cases hflag : s.nnodf v with
      | pending => exact absurd hflag hpending
      | dead =>
          refine ⟨_, _, origin, rfl, h, Extends.refl .., fun _ => h.dead hflag, ?_⟩
          rintro m ⟨⟩
      | unknown =>
          have hfresh : Fresh s v := ⟨hflag, hname⟩
          have hnot := h.not_mem hfresh
          have hstart : Extends F S s (s.setFlag v .pending) origin origin :=
            extends_setFlag fun hne => by cases hne
          obtain ⟨reachable, s', origin', heq, hv⟩ := hvisit S v _ origin hvU hnot
            (h.setPending hname) (h.builtAmong_nil hF hname)
            ((ncard_setPending_lt hU hvU hfresh).trans_le hfuel)
          cases reachable with
          | true =>
              have hnamed := hv.named rfl
              refine ⟨s'.nnodm v, s'.setFlag v .unknown, origin', by simp [heq, bind, Except.bind], ?_,
                hstart.trans (hv.extend.trans (extends_setFlag fun _ => hnamed)), ?_, ?_⟩
              · exact hv.inv.endVisit (by decide) (fun hne => by cases hne) hnot hv.complete
              · exact fun hnone => absurd hnone hnamed
              · exact fun n hn => hn
          | false =>
              have hdead := hv.unreachable rfl
              refine ⟨none, s'.setFlag v .dead, origin', by simp [heq, bind, Except.bind], ?_,
                hstart.trans (hv.extend.trans (extends_setFlag fun hne => by cases hne)), ?_, ?_⟩
              · exact hv.inv.endVisit (by decide) (fun _ => hdead) hnot hv.complete
              · exact fun _ => hdead
              · rintro n ⟨⟩

/-- What holds in the loop over the edges of a node, of which those in `done` have been looked at. -/
structure Looked (F : Frame κ δ ν ε) (stop v : ν) (done : List ε) (s : Build κ δ ν)
    (origin : ℕ → Option ε) (reachable : Bool) : Prop where
  among : BuiltAmong F s origin v done
  built : ∀ e ∈ done, Leads F.out F.dst (F.dst e) stop → ∃ l ∈ s.ngraph.links, origin l.id = some e
  unreachable : reachable = false → ∀ e ∈ done, ¬Leads F.out F.dst (F.dst e) stop
  named : reachable = true → s.nnodm v ≠ none

omit [DecidableEq ν] in
theorem Looked.of_extends {done : List ε} {reachable : Bool}
    (h : Looked F stop v done s origin reachable) (hext : Extends F S s s' origin origin')
    (hv : v ∈ S) : Looked F stop v done s' origin' reachable where
  among := h.among.of_extends hext hv
  built := by
    intro e he hleads
    obtain ⟨l, hl, horigin⟩ := h.built e he hleads
    exact ⟨l, (hext.links hl).1, (hext.links hl).2.trans horigin⟩
  unreachable := h.unreachable
  named hr := hext.named (h.named hr)

/-- The loop over the edges of a node, by induction on those that remain. -/
theorem buildLoop_ok (hvisit : Visits F start stop U visit fuel) (hF : F.Proper) (hU : U.Finite)
    (hclosed : ∀ e ∈ F.out v, F.dst e ∈ U) (hnot : v ∉ S) {rest done : List ε} {reachable : Bool}
    (hout : F.out v = done.reverse ++ rest) (h : Inv F start stop (insert v S) s origin)
    (hlooked : Looked F stop v done s origin reachable)
    (hfuel : {w ∈ U | Fresh s w}.ncard ≤ fuel) :
    ∃ reachable' s' origin', buildLoop F visit v rest reachable s = .ok (reachable', s') ∧
      Visited F start stop S v s s' origin origin' reachable' := by
  induction rest generalizing done reachable s origin with
  | nil =>
      have hmem : ∀ {e}, e ∈ F.out v → e ∈ done := fun he => by simpa [hout] using he
      refine ⟨reachable, s, origin, rfl, h, Extends.refl .., fun e he => hlooked.built e (hmem he),
        fun hr hleads => ?_, hlooked.named⟩
      rcases Walks.leads_iff.mp hleads with rfl | ⟨e, he, hleads⟩
      · exact h.stop_not_mem (.inl rfl)
      · exact hlooked.unreachable hr e (hmem he) hleads
  | cons e rest ih =>
      have he : e ∈ F.out v := by simp [hout]
      have hnew : e ∉ done := by
        have hnodup := hF.nodup v
        rw [hout, List.nodup_append] at hnodup
        exact fun hmem => hnodup.2.2 e (List.mem_reverse.mpr hmem) e List.mem_cons_self rfl
      have hout' : F.out v = (e :: done).reverse ++ rest := by simp [hout]
      have hself : v ∈ insert v S := Set.mem_insert v S
      obtain ⟨gnd, s₁, origin₁, heq, h₁, hext₁, hnone, hsome⟩ :=
        explore_ok hvisit hF hU (hclosed e he) h hfuel
      have hlooked₁ := hlooked.of_extends hext₁ hself
      have hmono₁ := hext₁.mono (Set.subset_insert v S)
      cases gnd with
      | none =>
          have hdead := hnone rfl
          obtain ⟨r, s', origin', heq', hv⟩ := ih hout' h₁
            { among := fun l hl e' he' horigin => .tail _ (hlooked₁.among l hl e' he' horigin)
              built := List.forall_mem_cons.mpr ⟨fun hleads => absurd hleads hdead, hlooked₁.built⟩
              unreachable := fun hr => List.forall_mem_cons.mpr ⟨hdead, hlooked₁.unreachable hr⟩
              named := hlooked₁.named }
            ((hext₁.ncard_le hU).trans hfuel)
          refine ⟨r, s', origin', ?_, { hv with extend := hmono₁.trans hv.extend }⟩
          simp only [buildLoop, heq, bind, Except.bind]
          exact heq'
      | some gnd =>
          have h₂ := h₁.counterpart hself
          have hext₂ : Extends F (insert v S) s₁ (s₁.counterpart v).2 origin₁ origin₁ :=
            extends_counterpart
          have hlooked₂ := hlooked₁.of_extends hext₂ hself
          obtain ⟨ngraph, origin₃, hlink, h₃, hext₃, hamong, hbuilt⟩ := h₂.build hF hnot he
            counterpart_nnodm (counterpart_names (hsome gnd rfl)) hlooked₂.among hnew
          have hext := hmono₁.trans ((hext₂.mono (Set.subset_insert v S)).trans hext₃)
          have hnamed : (s₁.counterpart v).2.nnodm v ≠ none := by
            rw [counterpart_nnodm]
            exact Option.some_ne_none _
          have hlooked₃ : Looked F stop v (e :: done) { (s₁.counterpart v).2 with ngraph } origin₃
              true := {
            among := hamong
            built := by
              refine List.forall_mem_cons.mpr ⟨fun _ => hbuilt, fun e' he' hleads => ?_⟩
              obtain ⟨l, hl, horigin⟩ := hlooked₂.built e' he' hleads
              exact ⟨l, (hext₃.links hl).1, (hext₃.links hl).2.trans horigin⟩
            unreachable := fun hr => by cases hr
            named := fun _ => hnamed }
          obtain ⟨r, s', origin', heq', hv⟩ :=
            ih hout' h₃ hlooked₃ ((hext.ncard_le hU).trans hfuel)
          refine ⟨r, s', origin', ?_, { hv with extend := hext.trans hv.extend }⟩
          simp only [buildLoop, heq, bind, Except.bind, hlink]
          exact heq'

/-- **A visit is right**, by induction on the number of nodes that are not known. -/
theorem buildSub_ok (hF : F.Proper) (hU : U.Finite)
    (hclosed : ∀ v ∈ U, ∀ e ∈ F.out v, F.dst e ∈ U) (fuel : ℕ) :
    Visits F start stop U (buildSub F fuel) fuel := by
  induction fuel with
  | zero => exact fun S v s origin _ _ _ _ hfuel => absurd hfuel (Nat.not_lt_zero _)
  | succ fuel ih =>
      intro S v s origin hvU hnot h hamong hfuel
      have hlooked : Looked F stop v [] s origin false := {
        among := hamong
        built := by simp
        unreachable := by simp
        named := fun hr => by cases hr }
      exact buildLoop_ok ih hF hU (hclosed v hvU) hnot rfl h hlooked (Nat.lt_succ_iff.mp hfuel)

theorem init_nnodm {n : ℕ} (h : (Build.init start stop : Build κ δ ν).nnodm v = some n) :
    (v = stop ∧ n = GGraph.endnode) ∨ (v = start ∧ n = GGraph.startnode) := by
  simp only [Build.init, Function.update_apply] at h
  split at h
  case isTrue heq => exact .inl ⟨heq, (Option.some.inj h).symm⟩
  case isFalse =>
    split at h
    case isTrue heq => exact .inr ⟨heq, (Option.some.inj h).symm⟩
    case isFalse => cases h

/-- The invariant holds before the search. -/
theorem inv_init (hne : start ≠ stop) :
    Inv F start stop {start} (Build.init start stop) fun _ => none := by
  have hstart : (Build.init start stop : Build κ δ ν).nnodm start = some GGraph.startnode :=
    (Function.update_of_ne hne ..).trans (Function.update_self ..)
  exact {
    named := by
      intro v w n hv hw
      rcases init_nnodm hv with ⟨rfl, rfl⟩ | ⟨rfl, rfl⟩ <;>
        rcases init_nnodm hw with ⟨rfl, h⟩ | ⟨rfl, h⟩
      · rfl
      · cases h
      · cases h
      · rfl
    bound := by
      intro v n hv
      rcases init_nnodm hv with ⟨-, rfl⟩ | ⟨-, rfl⟩
      · exact Nat.one_lt_two
      · exact Nat.two_pos
    start_named := hstart
    stop_named := Function.update_self ..
    stop_not_mem := hne.symm
    pending := fun hv => by cases hv
    visited := by
      rintro v rfl
      exact .inr (hstart ▸ Option.some_ne_none _)
    dead := fun hv => by cases hv
    link := fun hl => by cases hl
    once := fun hl => by cases hl
    complete := by
      intro v hv hvS hstop
      obtain ⟨n, hn⟩ := Option.ne_none_iff_exists'.mp hv
      rcases init_nnodm hn with ⟨rfl, -⟩ | ⟨rfl, -⟩
      · exact absurd rfl hstop
      · exact absurd rfl hvS }

/-- **The paths of the new graph** are those of the frame. -/
theorem buildGraph_paths (hF : F.Proper) (hU : U.Finite)
    (hclosed : ∀ v ∈ U, ∀ e ∈ F.out v, F.dst e ∈ U) (hstart : start ∈ U) (hne : start ≠ stop)
    (hstop : F.out stop = []) (hfuel : U.ncard < fuel) (other : GLink κ δ → ε) :
    ∃ (g : GGraph κ δ) (origin : GLink κ δ → ε), buildGraph F fuel start stop = .ok g ∧
      Set.BijOn (List.map origin) {k | g.Path GGraph.startnode k GGraph.endnode}
        {p | Walk F.out F.dst start p stop} ∧
      (∀ l ∈ g.links, Carries F (origin l) l) ∧
      (Walks.Acyclic F.out F.dst → Walks.Acyclic g.downlink GLink.downnode) := by
  have hinv : Inv F start stop (insert start ∅) (Build.init start stop) fun _ => none := by
    rw [insert_empty_eq]
    exact inv_init hne
  have hcard : {w ∈ U | Fresh (Build.init start stop : Build κ δ ν) w}.ncard < fuel :=
    (Set.ncard_le_ncard (Set.sep_subset U _) hU).trans_lt hfuel
  obtain ⟨r, s, origin, heq, hv⟩ := buildSub_ok hF hU hclosed fuel ∅ start _ _ hstart
    (Set.notMem_empty start) hinv (fun l hl => by cases hl) hcard
  have hgetD : ∀ {l : GLink κ δ} {e : ε}, origin l.id = some e → (origin l.id).getD (other l) = e := by
    intro l e h
    rw [h, Option.getD_some]
  have himage : Walks.Image F.out F.dst s.ngraph.downlink GLink.downnode s.nnodm
      (fun l => (origin l.id).getD (other l)) := {
    named := hv.inv.named
    edge := by
      intro v u k hname hk
      obtain ⟨hmem, rfl⟩ := GGraph.mem_downlink.mp hk
      obtain ⟨w, e, horigin, he, hup, hdown, -⟩ := hv.inv.link hmem
      obtain rfl := hv.inv.named hname hup
      rw [hgetD horigin]
      exact ⟨he, hdown⟩
    once := by
      intro u k k' hk hk' h
      have hmem := (GGraph.mem_downlink.mp hk).1
      have hmem' := (GGraph.mem_downlink.mp hk').1
      obtain ⟨-, e, horigin, -⟩ := hv.inv.link hmem
      obtain ⟨-, e', horigin', -⟩ := hv.inv.link hmem'
      rw [hgetD horigin, hgetD horigin'] at h
      exact hv.inv.once hmem hmem' (horigin.trans (h ▸ horigin'.symm)) }
  refine ⟨s.ngraph, fun l => (origin l.id).getD (other l), ?_, ?_, ?_, ?_⟩
  · simp only [buildGraph, heq, bind, Except.bind]
  · apply Walks.bijOn_walks himage _ hv.inv.start_named hv.inv.stop_named
    intro v u e hname he hleads
    have hcomplete : Complete F stop s origin v := by
      by_cases hvs : v = start
      · exact hvs ▸ hv.complete
      refine hv.inv.complete (hname ▸ Option.some_ne_none u) ?_ ?_
      · rw [insert_empty_eq]
        exact hvs
      · rintro rfl
        rw [hstop] at he
        cases he
    obtain ⟨l, hl, horigin⟩ := hcomplete e he hleads
    obtain ⟨w, e', horigin', he', hup, -⟩ := hv.inv.link hl
    obtain rfl := Option.some.inj (horigin.symm.trans horigin')
    obtain rfl := hF.apart he he'
    have hu : l.upnode = u := Option.some.inj (hup.symm.trans hname)
    exact ⟨l, GGraph.mem_downlink.mpr ⟨hl, hu⟩, hgetD horigin⟩
  · intro l hl
    obtain ⟨-, e, horigin, -, -, -, hcarries⟩ := hv.inv.link hl
    simpa only [hgetD horigin] using hcarries
  · refine fun hacyclic => himage.acyclic hacyclic fun u k hk => ?_
    obtain ⟨hmem, rfl⟩ := GGraph.mem_downlink.mp hk
    obtain ⟨v, -, -, -, hup, -⟩ := hv.inv.link hmem
    exact ⟨v, hup⟩

end

end Lush.Graph
