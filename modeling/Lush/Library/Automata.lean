import Mathlib

/-!
# Automata with null transitions

A transition leads from a node to another one and reads a letter, or nothing.  `Reads` says which
words are read on the way between two nodes.  An automaton without null transitions reads the same
words as one that has some, if its transitions are those that are left when the null transitions
before them are passed over (`Eliminates.reads`).
-/

namespace Lush.Automata

variable {ν μ α : Type*} {step : ν → Option α → ν → Prop} {v w u : ν} {a : α} {x y : List α}

/-- The words that are read between two nodes. -/
inductive Reads (step : ν → Option α → ν → Prop) : ν → List α → ν → Prop
  | nil (v : ν) : Reads step v [] v
  | null {v w u : ν} {x : List α} : step v none w → Reads step w x u → Reads step v x u
  | letter {v w u : ν} {a : α} {x : List α} :
      step v (some a) w → Reads step w x u → Reads step v (a :: x) u

/-- A node that null transitions lead to. -/
def Nulls (step : ν → Option α → ν → Prop) : ν → ν → Prop :=
  Relation.ReflTransGen fun v w => step v none w

theorem Reads.append (h : Reads step v x w) (h' : Reads step w y u) :
    Reads step v (x ++ y) u := by
  induction h with
  | nil => exact h'
  | null hstep _ ih => exact .null hstep (ih h')
  | letter hstep _ ih => exact .letter hstep (ih h')

theorem Reads.of_nulls (h : Nulls step v w) (h' : Reads step w x u) : Reads step v x u := by
  induction h using Relation.ReflTransGen.head_induction_on with
  | refl => exact h'
  | head hstep _ ih => exact .null hstep ih

theorem Reads.mono {step' : ν → Option α → ν → Prop} (h : Reads step v x w)
    (hsub : ∀ v a w, step v a w → step' v a w) : Reads step' v x w := by
  induction h with
  | nil => exact .nil _
  | null hstep _ ih => exact .null (hsub _ _ _ hstep) ih
  | letter hstep _ ih => exact .letter (hsub _ _ _ hstep) ih

theorem reads_nil : Reads step v [] u ↔ Nulls step v u := by
  constructor
  · intro h
    generalize hx : ([] : List α) = x at h
    induction h with
    | nil => exact .refl
    | null hstep _ ih => exact .head hstep (ih hx)
    | letter => cases hx
  · exact fun h => .of_nulls h (.nil u)

/-- The first letter is read after some null transitions. -/
theorem reads_cons : Reads step v (a :: x) u ↔
    ∃ m d, Nulls step v m ∧ step m (some a) d ∧ Reads step d x u := by
  constructor
  · intro h
    generalize hy : a :: x = y at h
    induction h with
    | nil => cases hy
    | null hstep _ ih =>
        obtain ⟨m, d, hnulls, hrest⟩ := ih hy
        exact ⟨m, d, .head hstep hnulls, hrest⟩
    | letter hstep hreads =>
        cases hy
        exact ⟨_, _, .refl, hstep, hreads⟩
  · rintro ⟨m, d, hnulls, hstep, hreads⟩
    exact .of_nulls hnulls (.letter hstep hreads)

/-- Without null transitions, the first letter is read at once. -/
theorem reads_cons_of_clean (hclean : ∀ v w, ¬step v none w) :
    Reads step v (a :: x) u ↔ ∃ d, step v (some a) d ∧ Reads step d x u := by
  constructor
  · rintro (_ | ⟨hnull, _⟩ | ⟨hstep, hreads⟩)
    · exact absurd hnull (hclean _ _)
    · exact ⟨_, hstep, hreads⟩
  · rintro ⟨d, hstep, hreads⟩
    exact .letter hstep hreads

theorem reads_nil_of_clean (hclean : ∀ v w, ¬step v none w) : Reads step v [] u ↔ v = u := by
  constructor
  · rintro (_ | ⟨hnull, _⟩)
    · rfl
    · exact absurd hnull (hclean _ _)
  · rintro rfl
    exact .nil v

/-- The nodes `U` are named by nodes of an automaton without null transitions.  Where a letter leads
to a node from which null transitions lead to the end, it leads to the end, too. -/
structure Eliminates (step : ν → Option α → ν → Prop) (U : Set ν) (stop : ν)
    (step' : μ → Option α → μ → Prop) (stop' : μ) (name : ν → μ) : Prop where
  closed : ∀ {v a w}, v ∈ U → step v a w → w ∈ U
  clean : ∀ m m', ¬step' m none m'
  letter : ∀ {v a t}, v ∈ U → (step' (name v) (some a) t ↔
    ∃ m d, Nulls step v m ∧ step m (some a) d ∧ (t = name d ∨ t = stop' ∧ Nulls step d stop))
  stop : ∀ {v}, v ∈ U → name v = stop' → Nulls step v stop
  last : ∀ a m, ¬step' stop' a m

theorem Nulls.mem {U : Set ν} (hclosed : ∀ {v a w}, v ∈ U → step v a w → w ∈ U) (hv : v ∈ U)
    (h : Nulls step v w) : w ∈ U := by
  induction h with
  | refl => exact hv
  | tail _ hstep ih => exact hclosed ih hstep

/-- **The same words are read**, apart from the empty one. -/
theorem Eliminates.reads {U : Set ν} {stop : ν} {step' : μ → Option α → μ → Prop} {stop' : μ}
    {name : ν → μ} (h : Eliminates step U stop step' stop' name) (hv : v ∈ U) :
    Reads step' (name v) (a :: x) stop' ↔ Reads step v (a :: x) stop := by
  induction x generalizing v a with
  | nil =>
      simp only [reads_cons_of_clean h.clean, reads_nil_of_clean h.clean, exists_eq_right,
        h.letter hv, reads_cons, reads_nil]
      refine exists_congr fun m => exists_congr fun d => ?_
      refine and_congr_right fun hnulls => and_congr_right fun hstep => ?_
      have hd : d ∈ U := h.closed (Nulls.mem h.closed hv hnulls) hstep
      exact ⟨fun hor => hor.elim (fun heq => h.stop hd heq.symm) And.right, fun hd => .inr ⟨trivial, hd⟩⟩
  | cons b x ih =>
      rw [reads_cons_of_clean h.clean, reads_cons]
      constructor
      · rintro ⟨t, hstep, hreads⟩
        obtain ⟨m, d, hnulls, hletter, rfl | ⟨rfl, -⟩⟩ := (h.letter hv).mp hstep
        · have hd : d ∈ U := h.closed (Nulls.mem h.closed hv hnulls) hletter
          exact ⟨m, d, hnulls, hletter, (ih hd).mp hreads⟩
        · obtain ⟨t, hlast, -⟩ := (reads_cons_of_clean h.clean).mp hreads
          exact absurd hlast (h.last _ _)
      · rintro ⟨m, d, hnulls, hletter, hreads⟩
        have hd : d ∈ U := h.closed (Nulls.mem h.closed hv hnulls) hletter
        exact ⟨name d, (h.letter hv).mpr ⟨m, d, hnulls, hletter, .inl rfl⟩, (ih hd).mpr hreads⟩

end Lush.Automata
