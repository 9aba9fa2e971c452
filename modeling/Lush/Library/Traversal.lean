import Mathlib.Algebra.Order.BigOperators.Group.Finset
import Mathlib.Data.Fintype.Card
import Mathlib.Logic.Relation

/-!
# Depth-first traversals of a pointer graph

A graph is a type of nodes `ν` and, for each node, the list of references it
holds; a reference is an `Option ν`, with `none` for the null pointer.  A
traversal runs a visitor on a reference; the visitor changes a state and says
whether to go on to the references held by the target.  Recursion is bounded by
an explicit depth.

The traversal everything is compared with is the *tally*: it adds one to a
counter at every visit, and goes on at the first visit only, so that the
counter is also the visited mark.  Two facts carry the whole file:

* `walk_tally`: a depth above the number of unvisited nodes is enough, and
  the counters grow by the references consumed (`Tallied`);
* `walk_sim`: a visitor that simulates another step by step simulates its
  traversals.

Started from zero, a tally counts the references to each node from the roots
and from the nodes reachable from them (`Tallied.count_of_zero`).
-/

namespace Lush.Traversal

variable {ν σ τ ε : Type*}

/-! ## The traversal -/

/-- The references held by the target of a reference. -/
def below (children : ν → List (Option ν)) (p : Option ν) : List (Option ν) :=
  p.elim [] children

@[simp] theorem below_none (children : ν → List (Option ν)) : below children none = [] := rfl

@[simp] theorem below_some (children : ν → List (Option ν)) (a : ν) :
    below children (some a) = children a := rfl

/-- The depth-first traversal from one reference.  `deep` is the error reported
when the recursion is deeper than its bound. -/
def walk (children : ν → List (Option ν)) (deep : ε)
    (visit : Option ν → σ → Except ε (Bool × σ)) : ℕ → Option ν → σ → Except ε σ
  | 0, _, _ => .error deep
  | depth + 1, p, s => do
      let (go, s) ← visit p s
      if go then
        (below children p).foldlM (fun s q => walk children deep visit depth q s) s
      else
        pure s

/-- The traversal from a list of references, one after the other. -/
def walkAll (children : ν → List (Option ν)) (deep : ε)
    (visit : Option ν → σ → Except ε (Bool × σ)) (depth : ℕ) (ps : List (Option ν)) (s : σ) :
    Except ε σ :=
  ps.foldlM (fun s q => walk children deep visit depth q s) s

variable {children : ν → List (Option ν)} {deep : ε}

theorem walk_succ (visit : Option ν → σ → Except ε (Bool × σ)) (depth : ℕ) (p : Option ν)
    (s : σ) : walk children deep visit (depth + 1) p s = (do
      let (go, s) ← visit p s
      if go then walkAll children deep visit depth (below children p) s else pure s) := rfl

@[simp] theorem walkAll_nil (visit : Option ν → σ → Except ε (Bool × σ)) (depth : ℕ)
    (s : σ) : walkAll children deep visit depth [] s = .ok s := rfl

@[simp] theorem walkAll_cons (visit : Option ν → σ → Except ε (Bool × σ)) (depth : ℕ)
    (p : Option ν) (ps : List (Option ν)) (s : σ) :
    walkAll children deep visit depth (p :: ps) s =
      (walk children deep visit depth p s >>= walkAll children deep visit depth ps) := by
  simp only [walkAll, List.foldlM_cons]
  rfl

/-! ## Reachability -/

/-- `b` is held by `a`. -/
def Holds (children : ν → List (Option ν)) (a b : ν) : Prop :=
  some b ∈ children a

/-- `b` can be reached from one of the references `roots`. -/
def Reachable (children : ν → List (Option ν)) (roots : List (Option ν)) (b : ν) : Prop :=
  ∃ a, some a ∈ roots ∧ Relation.ReflTransGen (Holds children) a b

theorem Reachable.of_mem {roots : List (Option ν)} {a : ν} (h : some a ∈ roots) :
    Reachable children roots a :=
  ⟨a, h, .refl⟩

theorem Reachable.step {roots : List (Option ν)} {a b : ν} (h : Reachable children roots a)
    (hb : some b ∈ children a) : Reachable children roots b := by
  obtain ⟨r, hr, hpath⟩ := h
  exact ⟨r, hr, hpath.tail hb⟩

theorem Reachable.mono {roots roots' : List (Option ν)} (hsub : roots ⊆ roots') {b : ν}
    (h : Reachable children roots b) : Reachable children roots' b := by
  obtain ⟨r, hr, hpath⟩ := h
  exact ⟨r, hsub hr, hpath⟩

/-- A set that holds the roots and is closed under references holds all that is
reachable. -/
theorem Reachable.induction {roots : List (Option ν)} {P : ν → Prop}
    (hroots : ∀ a, some a ∈ roots → P a)
    (hstep : ∀ a b, P a → some b ∈ children a → P b) {b : ν}
    (h : Reachable children roots b) : P b := by
  obtain ⟨r, hr, hpath⟩ := h
  induction hpath with
  | refl => exact hroots r hr
  | tail _ hedge ih => exact hstep _ _ ih hedge

/-- What is reachable from the references of `a` is reachable from `a`. -/
theorem Reachable.of_children {a b : ν} (h : Reachable children (children a) b) :
    Reachable children [some a] b := by
  obtain ⟨r, hr, hpath⟩ := h
  exact ⟨a, by simp, .head hr hpath⟩

open Classical in
/-- The number of references to a node from the roots, and from the nodes that
these reach. -/
noncomputable def references [Fintype ν] (children : ν → List (Option ν))
    (roots : List (Option ν)) (a : ν) : ℕ :=
  roots.count (some a) +
    ∑ b ∈ Finset.univ.filter (Reachable children roots), (children b).count (some a)

/-! ## Simulation -/

section Simulation

variable {visit : Option ν → σ → Except ε (Bool × σ)} {visit' : Option ν → τ → Except ε (Bool × τ)}
  {R : σ → τ → Prop} {B : τ → Prop}

theorem walk_ok {visit : Option ν → σ → Except ε (Bool × σ)} {depth : ℕ} {p : Option ν}
    {s s' : σ} : walk children deep visit (depth + 1) p s = .ok s' ↔
      ∃ go s1, visit p s = .ok (go, s1) ∧
        ((go = true ∧ walkAll children deep visit depth (below children p) s1 = .ok s') ∨
          (go = false ∧ s1 = s')) := by
  rw [walk_succ]
  cases hvisit : visit p s with
  | error e => simp [Bind.bind, Except.bind]
  | ok r =>
      obtain ⟨go, s1⟩ := r
      cases go <;> simp [Bind.bind, Except.bind, pure, Except.pure]

theorem walkAll_ok {visit : Option ν → σ → Except ε (Bool × σ)} {depth : ℕ} {p : Option ν}
    {ps : List (Option ν)} {s s' : σ} :
    walkAll children deep visit depth (p :: ps) s = .ok s' ↔
      ∃ s1, walk children deep visit depth p s = .ok s1 ∧
        walkAll children deep visit depth ps s1 = .ok s' := by
  rw [walkAll_cons]
  cases walk children deep visit depth p s <;> simp [Bind.bind, Except.bind]

/-- `B` can be pulled back over a visit. -/
def Backward (visit' : Option ν → τ → Except ε (Bool × τ)) (B : τ → Prop) : Prop :=
  ∀ p t go t', visit' p t = .ok (go, t') → B t' → B t

theorem walkAll_backward_of {depth : ℕ}
    (ih : ∀ p t t', walk children deep visit' depth p t = .ok t' → B t' → B t) :
    ∀ ps t t', walkAll children deep visit' depth ps t = .ok t' → B t' → B t := by
  intro ps
  induction ps with
  | nil => intro t t' h hB; cases h; exact hB
  | cons p ps ihps =>
      intro t t' h hB
      obtain ⟨t1, h1, h2⟩ := walkAll_ok.mp h
      exact ih p t t1 h1 (ihps t1 t' h2 hB)

theorem walk_backward (hB : Backward visit' B) :
    ∀ depth p t t', walk children deep visit' depth p t = .ok t' → B t' → B t := by
  intro depth
  induction depth with
  | zero => intro p t t' h; exact absurd h (by simp [walk])
  | succ depth ih =>
      intro p t t' h hBt
      obtain ⟨go, t1, h1, ⟨_, h2⟩ | ⟨_, rfl⟩⟩ := walk_ok.mp h
      · exact hB p t go t1 h1 (walkAll_backward_of ih _ t1 t' h2 hBt)
      · exact hB p t go t1 h1 hBt

/-- One step of a simulation of `visit'` by `visit`, needed only where the
state after the step is in `B`: `visit` succeeds too, and the two agree on going
on unless there is nowhere to go. -/
def StepSim (children : ν → List (Option ν)) (visit : Option ν → σ → Except ε (Bool × σ))
    (visit' : Option ν → τ → Except ε (Bool × τ)) (B : τ → Prop) (R : σ → τ → Prop) : Prop :=
  ∀ p s t go' t', R s t → visit' p t = .ok (go', t') → B t' →
    ∃ go s', visit p s = .ok (go, s') ∧ R s' t' ∧ (go = go' ∨ below children p = [])

theorem walkAll_sim_of {depth : ℕ} (hB : Backward visit' B)
    (ih : ∀ p s t t', R s t → walk children deep visit' depth p t = .ok t' → B t' →
      ∃ s', walk children deep visit depth p s = .ok s' ∧ R s' t') :
    ∀ ps s t t', R s t → walkAll children deep visit' depth ps t = .ok t' → B t' →
      ∃ s', walkAll children deep visit depth ps s = .ok s' ∧ R s' t' := by
  intro ps
  induction ps with
  | nil => intro s t t' h h' _; cases h'; exact ⟨s, rfl, h⟩
  | cons p ps ihps =>
      intro s t t' h h' hBt
      obtain ⟨t1, h1, h2⟩ := walkAll_ok.mp h'
      have hB1 := walkAll_backward_of (walk_backward hB depth) ps t1 t' h2 hBt
      obtain ⟨s1, hs1, hR1⟩ := ih p s t t1 h h1 hB1
      obtain ⟨s2, hs2, hR2⟩ := ihps s1 t1 t' hR1 h2 hBt
      exact ⟨s2, walkAll_ok.mpr ⟨s1, hs1, hs2⟩, hR2⟩

/-- **A visitor that simulates another step by step simulates its traversals**,
as long as these end in `B`. -/
theorem walk_sim (hB : Backward visit' B) (hstep : StepSim children visit visit' B R) :
    ∀ depth p s t t', R s t → walk children deep visit' depth p t = .ok t' → B t' →
      ∃ s', walk children deep visit depth p s = .ok s' ∧ R s' t' := by
  intro depth
  induction depth with
  | zero => intro p s t t' _ h'; exact absurd h' (by simp [walk])
  | succ depth ih =>
      intro p s t t' h h' hBt
      obtain ⟨go', t1, h1, hrest⟩ := walk_ok.mp h'
      have hB1 : B t1 := by
        rcases hrest with ⟨_, h2⟩ | ⟨_, rfl⟩
        · exact walkAll_backward_of (walk_backward hB depth) _ t1 t' h2 hBt
        · exact hBt
      obtain ⟨go, s1, hs1, hR1, hgo⟩ := hstep p s t go' t1 h h1 hB1
      -- the references below are visited on both sides, or there are none
      have hall : go' = true ∨ below children p = [] →
          ∃ s', walkAll children deep visit depth (below children p) s1 = .ok s' ∧
            R s' t' := by
        rintro (rfl | hnil)
        · rcases hrest with ⟨_, h2⟩ | ⟨hfalse, _⟩
          · exact walkAll_sim_of hB ih _ s1 t1 t' hR1 h2 hBt
          · exact absurd hfalse (by simp)
        · refine ⟨s1, by rw [hnil]; rfl, ?_⟩
          rcases hrest with ⟨_, h2⟩ | ⟨_, rfl⟩
          · rw [hnil] at h2
            cases h2
            exact hR1
          · exact hR1
      have hnone : go' = false ∨ below children p = [] → R s1 t' := by
        rintro (rfl | hnil)
        · rcases hrest with ⟨hfalse, _⟩ | ⟨_, rfl⟩
          · exact absurd hfalse (by simp)
          · exact hR1
        · obtain ⟨s', hs', hR'⟩ := hall (Or.inr hnil)
          rw [hnil] at hs'
          cases hs'
          exact hR'
      cases go with
      | true =>
          obtain ⟨s', hs', hR'⟩ := hall (hgo.imp_left Eq.symm)
          exact ⟨s', walk_ok.mpr ⟨true, s1, hs1, Or.inl ⟨rfl, hs'⟩⟩, hR'⟩
      | false =>
          exact ⟨s1, walk_ok.mpr ⟨false, s1, hs1, Or.inr ⟨rfl, rfl⟩⟩,
            hnone (hgo.imp_left Eq.symm)⟩

theorem walkAll_sim (hB : Backward visit' B) (hstep : StepSim children visit visit' B R)
    {depth : ℕ} {ps : List (Option ν)} {s : σ} {t t' : τ} (h : R s t)
    (h' : walkAll children deep visit' depth ps t = .ok t') (hBt : B t') :
    ∃ s', walkAll children deep visit depth ps s = .ok s' ∧ R s' t' :=
  walkAll_sim_of hB (walk_sim hB hstep depth) ps s t t' h h' hBt

end Simulation

/-! ## The tally -/

section Tally

variable [DecidableEq ν]

/-- One more visit of `a`. -/
def bump (c : ν → ℕ) (a : ν) : ν → ℕ :=
  Function.update c a (c a + 1)

@[simp] theorem bump_self (c : ν → ℕ) (a : ν) : bump c a a = c a + 1 := by
  simp [bump]

@[simp] theorem bump_of_ne (c : ν → ℕ) {a b : ν} (h : b ≠ a) : bump c a b = c b := by
  simp [bump, h]

theorem le_bump (c : ν → ℕ) (a b : ν) : c b ≤ bump c a b := by
  by_cases h : b = a
  · subst h; simp
  · simp [h]

/-- The counting visitor: one more at every visit, and on at the first one. -/
def tally : Option ν → (ν → ℕ) → Except ε (Bool × (ν → ℕ))
  | none, c => .ok (false, c)
  | some a, c => .ok (c a == 0, bump c a)

/-- The tallies that stay below a given one are closed backwards. -/
theorem tally_backward (bound : ν → ℕ) :
    Backward (tally (ε := ε)) (fun c => ∀ a, c a ≤ bound a) := by
  intro p c go c' h hle a
  cases p with
  | none => cases h; exact hle a
  | some b =>
      cases h
      exact (le_bump c b a).trans (hle a)

variable [Fintype ν]

/-- The nodes visited for the first time between two counters. -/
def fresh (c c' : ν → ℕ) : Finset ν :=
  Finset.univ.filter fun b => c b = 0 ∧ c' b ≠ 0

/-- The nodes not visited yet. -/
def unseen (c : ν → ℕ) : Finset ν :=
  Finset.univ.filter fun b => c b = 0

omit [DecidableEq ν] in
@[simp] theorem mem_fresh {c c' : ν → ℕ} {b : ν} : b ∈ fresh c c' ↔ c b = 0 ∧ c' b ≠ 0 := by
  simp [fresh]

omit [DecidableEq ν] in
@[simp] theorem mem_unseen {c : ν → ℕ} {b : ν} : b ∈ unseen c ↔ c b = 0 := by
  simp [unseen]

/-- What a tally from the references `roots` does to the counters: it consumes
each of these references once, and each reference held by a newly visited node
once; it visits nothing but what `roots` reach. -/
structure Tallied (children : ν → List (Option ν)) (roots : List (Option ν)) (c c' : ν → ℕ) :
    Prop where
  count : ∀ a, c' a = c a + roots.count (some a) +
    ∑ b ∈ fresh c c', (children b).count (some a)
  reach : ∀ b, c b = 0 → c' b ≠ 0 → Reachable children roots b

namespace Tallied

variable {roots roots' : List (Option ν)} {c c' c'' : ν → ℕ}

theorem le (h : Tallied children roots c c') (a : ν) : c a ≤ c' a := by
  rw [h.count a, Nat.add_assoc]
  exact Nat.le_add_right _ _

theorem refl (c : ν → ℕ) : Tallied children [] c c where
  count a := by
    have : fresh c c = ∅ := by ext b; simp
    simp [this]
  reach b h h' := absurd h h'

theorem fresh_trans (h : Tallied children roots c c') (h' : Tallied children roots' c' c'') :
    fresh c c'' = fresh c c' ∪ fresh c' c'' := by
  ext b
  have h1 := h.le b
  have h2 := h'.le b
  simp only [Finset.mem_union, mem_fresh]
  omega

theorem trans (h : Tallied children roots c c') (h' : Tallied children roots' c' c'') :
    Tallied children (roots ++ roots') c c'' where
  count a := by
    have hdisj : Disjoint (fresh c c') (fresh c' c'') := by
      rw [Finset.disjoint_left]
      intro b hb hb'
      exact (mem_fresh.mp hb).2 (mem_fresh.mp hb').1
    rw [h'.count a, h.count a, fresh_trans h h', Finset.sum_union hdisj, List.count_append]
    omega
  reach b hb hb' := by
    by_cases hmid : c' b = 0
    · exact (h'.reach b hmid hb').mono (List.subset_append_right _ _)
    · exact (h.reach b hb hmid).mono (List.subset_append_left _ _)

/-- Visiting a node that was visited before consumes one reference. -/
theorem revisit {a : ν} (ha : c a ≠ 0) :
    Tallied children [some a] c (bump c a) where
  count x := by
    have hfresh : fresh c (bump c a) = ∅ := by
      ext b
      by_cases hb : b = a
      · subst hb; simp [ha]
      · simp [hb]
    by_cases hx : x = a
    · subst hx; simp [hfresh]
    · simp [hfresh, hx, Ne.symm hx]
  reach b hb hb' := by
    by_cases hba : b = a
    · subst hba; exact absurd hb ha
    · simp [hba] at hb'; exact absurd hb hb'

/-- Visiting a node for the first time consumes one reference and then the
references it holds. -/
theorem enter {a : ν} (ha : c a = 0)
    (h : Tallied children (children a) (bump c a) c') :
    Tallied children [some a] c c' := by
  have hca' : c' a ≠ 0 := by
    have := h.le a
    simp at this
    omega
  have hfresh : fresh c c' = insert a (fresh (bump c a) c') := by
    ext b
    by_cases hb : b = a
    · subst hb; simp [ha, hca']
    · simp [hb]
  have hnot : a ∉ fresh (bump c a) c' := by simp
  refine ⟨fun x => ?_, fun b hb hb' => ?_⟩
  · rw [hfresh, Finset.sum_insert hnot, h.count x]
    by_cases hx : x = a
    · subst hx; simp; omega
    · simp [hx, Ne.symm hx]; omega
  · by_cases hba : b = a
    · subst hba; exact .of_mem (by simp)
    · exact (h.reach b (by simpa [hba] using hb) hb').of_children

/-- A tally that may enter all that the roots reach does so, and nothing else. -/
theorem ne_zero_iff (h : Tallied children roots c c')
    (hzero : ∀ b, Reachable children roots b → c b = 0) (b : ν) :
    c' b ≠ 0 ↔ c b ≠ 0 ∨ Reachable children roots b := by
  refine ⟨fun hb => ?_, fun hb => ?_⟩
  · by_cases hcb : c b = 0
    · exact Or.inr (h.reach b hcb hb)
    · exact Or.inl hcb
  rcases hb with hb | hreach
  · exact fun h0 => hb (Nat.le_zero.mp (h0 ▸ h.le b))
  suffices hall : Reachable children roots b ∧ c' b ≠ 0 from hall.2
  refine hreach.induction (P := fun b => Reachable children roots b ∧ c' b ≠ 0)
    (fun a ha => ⟨.of_mem ha, ?_⟩) (fun a b ha hb => ⟨ha.1.step hb, ?_⟩)
  · have := List.count_pos_iff.mpr ha
    rw [h.count a]
    omega
  · have hpos : 0 < (children a).count (some b) := List.count_pos_iff.mpr hb
    have hmem : a ∈ fresh c c' := mem_fresh.mpr ⟨hzero a ha.1, ha.2⟩
    have hle := Finset.single_le_sum (f := fun x => (children x).count (some b))
      (fun _ _ => Nat.zero_le _) hmem
    rw [h.count b]
    omega

/-- **A tally started from zero counts references**: those of the roots, and
those held by the nodes the roots reach. -/
theorem count_of_zero (h : Tallied children roots (fun _ => 0) c') (a : ν) :
    c' a = references children roots a := by
  classical
  have hfresh : fresh (fun _ => 0) c' = Finset.univ.filter (Reachable children roots) := by
    ext b
    simpa using h.ne_zero_iff (fun _ _ => rfl) b
  rw [h.count a, hfresh, Nat.zero_add, references]
  congr!

end Tallied

theorem card_unseen_update_lt {c : ν → ℕ} {a : ν} (ha : c a = 0) :
    (unseen (bump c a)).card < (unseen c).card := by
  refine Finset.card_lt_card ⟨fun b hb => ?_, fun hsub => ?_⟩
  · by_cases hba : b = a
    · subst hba; simp at hb
    · simpa [hba] using hb
  · simpa using hsub (mem_unseen.mpr ha)

theorem card_unseen_le {roots : List (Option ν)} {c c' : ν → ℕ}
    (h : Tallied children roots c c') : (unseen c').card ≤ (unseen c).card := by
  refine Finset.card_le_card fun b hb => ?_
  have := h.le b
  rw [mem_unseen] at hb ⊢
  omega

/-- Over a list of references, given the result for one reference. -/
theorem walkAll_tally_of {depth : ℕ}
    (ih : ∀ (p : Option ν) (c : ν → ℕ), (unseen c).card < depth →
      ∃ c', walk children deep tally depth p c = .ok c' ∧ Tallied children [p] c c') :
    ∀ (ps : List (Option ν)) (c : ν → ℕ), (unseen c).card < depth →
      ∃ c', walkAll children deep tally depth ps c = .ok c' ∧ Tallied children ps c c' := by
  intro ps
  induction ps with
  | nil => intro c _; exact ⟨c, rfl, .refl c⟩
  | cons p ps ihps =>
      intro c hc
      obtain ⟨c1, h1, ht1⟩ := ih p c hc
      obtain ⟨c2, h2, ht2⟩ := ihps c1 ((card_unseen_le ht1).trans_lt hc)
      exact ⟨c2, by rw [walkAll_cons, h1]; exact h2, ht1.trans ht2⟩

/-- **A depth above the number of unvisited nodes is enough for a tally**, and
the counters grow by the references it consumes. -/
theorem walk_tally : ∀ (depth : ℕ) (p : Option ν) (c : ν → ℕ), (unseen c).card < depth →
    ∃ c', walk children deep tally depth p c = .ok c' ∧ Tallied children [p] c c' := by
  intro depth
  induction depth with
  | zero => intro p c h; exact absurd h (Nat.not_lt_zero _)
  | succ depth ih =>
      intro p c hc
      cases p with
      | none =>
          refine ⟨c, rfl, ⟨fun a => ?_, fun b h h' => absurd h h'⟩⟩
          have : fresh c c = ∅ := by ext b; simp
          simp [this]
      | some a =>
          by_cases ha : c a = 0
          · obtain ⟨c', h1, h2⟩ := walkAll_tally_of ih (children a)
              (bump c a) (by have := card_unseen_update_lt ha; omega)
            refine ⟨c', ?_, .enter ha h2⟩
            rw [walk_succ]
            simpa [tally, ha, Bind.bind, Except.bind] using h1
          · refine ⟨_, ?_, .revisit ha⟩
            rw [walk_succ]
            simp [tally, ha, Bind.bind, Except.bind, pure, Except.pure]

theorem walkAll_tally {depth : ℕ} (ps : List (Option ν)) (c : ν → ℕ)
    (hdepth : (unseen c).card < depth) :
    ∃ c', walkAll children deep tally depth ps c = .ok c' ∧ Tallied children ps c c' :=
  walkAll_tally_of (walk_tally depth) ps c hdepth

omit [DecidableEq ν] in
theorem card_unseen_lt (c : ν → ℕ) : (unseen c).card < Fintype.card ν + 1 :=
  Nat.lt_succ_of_le (Finset.card_le_univ _)

end Tally

end Lush.Traversal
