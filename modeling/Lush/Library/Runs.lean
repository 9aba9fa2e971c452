import Mathlib.Init

/-!
# Runs of a transition system

A step function takes a state and an action, and gives the next state where the
action is possible.  A run takes the actions of a list one after the other.
`Along` asks a condition of every step of a run, in the state in which the step
is taken; an invariant of the steps that meet a condition is an invariant of the
runs along which the condition is met (`invariant_of_along`).  Where a step keeps a
property if and only if it meets the condition, so does a run (`iff_of_along`), and
where a step out of a state with the property keeps it under a condition only, the
property holds in all states of a run if and only if the condition is met along the run
(`throughout_iff_along`).
-/

namespace Lush.Runs

variable {σ α : Type*}

/-- The state after a list of actions. -/
def run (step : σ → α → Option σ) : σ → List α → Option σ
  | s, [] => some s
  | s, a :: as => (step s a).bind fun s' => run step s' as

/-- Every step of the run meets the condition. -/
def Along (step : σ → α → Option σ) (ok : σ → α → Prop) : σ → List α → Prop
  | _, [] => True
  | s, a :: as => ok s a ∧ (step s a).elim True fun s' => Along step ok s' as

variable {step : σ → α → Option σ}

@[simp] theorem run_nil (s : σ) : run step s [] = some s := rfl

theorem run_cons {s s' : σ} {a : α} {as : List α} : run step s (a :: as) = some s' ↔
    ∃ s1, step s a = some s1 ∧ run step s1 as = some s' := by
  rw [run, Option.bind_eq_some_iff]

theorem run_append {s s' : σ} {as bs : List α} : run step s (as ++ bs) = some s' ↔
    ∃ s1, run step s as = some s1 ∧ run step s1 bs = some s' := by
  induction as generalizing s with
  | nil => simp
  | cons a as ih =>
      simp only [List.cons_append, run_cons, ih]
      refine ⟨?_, ?_⟩
      · rintro ⟨s1, h1, s2, h2, h3⟩
        exact ⟨s2, ⟨s1, h1, h2⟩, h3⟩
      · rintro ⟨s2, ⟨s1, h1, h2⟩, h3⟩
        exact ⟨s1, h1, s2, h2, h3⟩

/-- A condition that the actions meet in every state. -/
theorem along_of_forall {ok : σ → α → Prop} {as : List α} (h : ∀ a ∈ as, ∀ s, ok s a) (s : σ) :
    Along step ok s as := by
  induction as generalizing s with
  | nil => trivial
  | cons a as ih =>
      refine ⟨h a (by simp) s, ?_⟩
      cases step s a with
      | none => trivial
      | some s' => exact ih (fun b hb => h b (by simp [hb])) s'

/-- The condition is met by every action of the run. -/
theorem Along.of_prefix {ok : σ → α → Prop} {as bs : List α} {a : α} {s t : σ}
    (h : Along step ok s as) (hbs : bs ++ [a] <+: as) (hrun : run step s bs = some t) : ok t a := by
  induction bs generalizing s as with
  | nil =>
      cases hrun
      obtain ⟨cs, rfl⟩ := hbs
      exact h.1
  | cons b bs ih =>
      obtain ⟨s1, h1, h2⟩ := run_cons.mp hrun
      obtain ⟨cs, rfl⟩ := hbs
      have hrest := h.2
      rw [h1] at hrest
      exact ih hrest (List.prefix_append _ _) h2

/-- The condition is met along the first actions of the run. -/
theorem Along.take {ok : σ → α → Prop} {as bs : List α} {s : σ} (h : Along step ok s as)
    (hbs : bs <+: as) : Along step ok s bs := by
  induction bs generalizing s as with
  | nil => trivial
  | cons b bs ih =>
      obtain ⟨cs, rfl⟩ := hbs
      refine ⟨h.1, ?_⟩
      have hrest := h.2
      cases hb : step s b with
      | none => trivial
      | some s1 =>
          rw [hb] at hrest
          exact ih hrest (List.prefix_append bs cs)

/-- **What the steps that meet a condition preserve, the runs along which it is
met preserve.** -/
theorem invariant_of_along {ok : σ → α → Prop} {I : σ → Prop}
    (hstep : ∀ s a s', I s → ok s a → step s a = some s' → I s') {as : List α} {s s' : σ}
    (hs : I s) (hok : Along step ok s as) (hrun : run step s as = some s') : I s' := by
  induction as generalizing s with
  | nil =>
      cases hrun
      exact hs
  | cons a as ih =>
      obtain ⟨s1, h1, h2⟩ := run_cons.mp hrun
      have hrest : Along step ok s1 as := by
        have := hok.2
        rwa [h1] at this
      exact ih (hstep s a s1 hs hok.1 h1) hrest h2

/-- **A property that a step keeps if and only if the step meets a condition holds at
the end of a run if and only if the condition was met along the run.** -/
theorem iff_of_along {ok : σ → α → Prop} {I P : σ → Prop}
    (hstep : ∀ s a s', I s → step s a = some s' → I s' ∧ (P s' ↔ P s ∧ ok s a)) {as : List α}
    {s s' : σ} (hs : I s) (hrun : run step s as = some s') :
    I s' ∧ (P s' ↔ P s ∧ Along step ok s as) := by
  induction as generalizing s with
  | nil =>
      cases hrun
      exact ⟨hs, (and_iff_left trivial).symm⟩
  | cons a as ih =>
      obtain ⟨s1, h1, h2⟩ := run_cons.mp hrun
      obtain ⟨hs1, hP⟩ := hstep s a s1 hs h1
      obtain ⟨hs', hP'⟩ := ih hs1 h2
      refine ⟨hs', ?_⟩
      rw [hP', hP, Along, h1]
      exact and_assoc

/-- **A property that a step out of a state with the property keeps if and only if the
step meets a condition holds in every state of a run if and only if the condition is met
along the run.** -/
theorem throughout_iff_along {ok : σ → α → Prop} {I P : σ → Prop}
    (hstep : ∀ s a s', I s → P s → step s a = some s' → I s' ∧ (P s' ↔ ok s a)) {as : List α}
    {s s' : σ} (hs : I s) (hP : P s) (hrun : run step s as = some s') :
    (∀ (bs : List α) (t : σ), bs <+: as → run step s bs = some t → P t) ↔
      Along step ok s as := by
  induction as generalizing s with
  | nil =>
      refine ⟨fun _ => trivial, ?_⟩
      rintro - bs t hbs ht
      rw [List.prefix_nil.mp hbs] at ht
      cases ht
      exact hP
  | cons a as ih =>
      obtain ⟨s1, h1, h2⟩ := run_cons.mp hrun
      obtain ⟨hs1, hiff⟩ := hstep s a s1 hs hP h1
      rw [Along, h1]
      refine ⟨fun h => ?_, ?_⟩
      · have hP1 : P s1 := h [a] s1 (List.prefix_append [a] as) (run_cons.mpr ⟨s1, h1, rfl⟩)
        refine ⟨hiff.mp hP1, (ih hs1 hP1 h2).mp fun bs t hbs ht => ?_⟩
        exact h (a :: bs) t ((List.prefix_cons_inj a).mpr hbs) (run_cons.mpr ⟨s1, h1, ht⟩)
      · rintro ⟨hok, halong⟩ bs t hbs ht
        have hP1 : P s1 := hiff.mpr hok
        cases bs with
        | nil =>
            cases ht
            exact hP
        | cons b bs =>
            obtain ⟨rfl, hrest⟩ := List.cons_prefix_cons.mp hbs
            obtain ⟨s2, hs2, ht2⟩ := run_cons.mp ht
            obtain rfl : s1 = s2 := Option.some.inj (h1.symm.trans hs2)
            exact (ih hs1 hP1 h2).mpr halong bs t hrest ht2

end Lush.Runs
