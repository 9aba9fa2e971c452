import Mathlib.Tactic.SplitIfs

/-!
# Programs that fail

A program changes a state and may fail, and the state is that of the moment where it fails.
It is atomic for a view of the state if the view is what it was before when the program
fails.
-/

namespace Lush.Rollback

/-- A program with a state that ends with a result or an error. -/
abbrev Program (ε σ α : Type) := ExceptT ε (StateM σ) α

variable {ε σ α β γ : Type}

/-- The result of a program, and the state after it. -/
def result (p : Program ε σ α) (s : σ) : Except ε α × σ := p s

/-- The program ends with an error if the condition holds. -/
def errorIf (c : Prop) [Decidable c] (e : ε) : Program ε σ Unit := if c then throw e else pure ()

/-- The program runs if the condition holds. -/
def onlyIf (c : Prop) [Decidable c] (p : Program ε σ Unit) : Program ε σ Unit :=
  if c then p else pure ()

/-- The program does not change the state. -/
def Reads (p : Program ε σ α) : Prop := ∀ s, (result p s).2 = s

/-- The view is the same after the program. -/
def Frames (view : σ → γ) (p : Program ε σ α) : Prop := ∀ s, view (result p s).2 = view s

/-- The view is the same after the program when it fails on the state. -/
def AtomicAt (view : σ → γ) (p : Program ε σ α) (s : σ) : Prop :=
  ∀ e s', result p s = (.error e, s') → view s' = view s

/-- The program is atomic on every state. -/
def Atomic (view : σ → γ) (p : Program ε σ α) : Prop := ∀ s, AtomicAt view p s

/-- The program does not fail. -/
def Total (p : Program ε σ α) : Prop := ∀ s, ∃ a s', result p s = (.ok a, s')

variable {view : σ → γ} {p : Program ε σ α} {f : α → Program ε σ β} {s s' : σ} {a : α} {e : ε}

theorem result_bind_ok (h : result p s = (.ok a, s')) : result (p >>= f) s = result (f a) s' := by
  unfold result at h ⊢
  change (ExceptT.bindCont f _ : StateM σ (Except ε β)) _ = _
  rw [h]
  rfl

theorem result_bind_error (h : result p s = (.error e, s')) :
    result (p >>= f) s = (.error e, s') := by
  unfold result at h ⊢
  change (ExceptT.bindCont f _ : StateM σ (Except ε β)) _ = _
  rw [h]
  rfl

theorem result_errorIf (c : Prop) [Decidable c] (e : ε) (s : σ) :
    result (errorIf c e) s = (if c then .error e else .ok (), s) := by
  unfold errorIf
  split_ifs <;> rfl

theorem result_errorIf_pos {c : Prop} [Decidable c] (h : c) (e : ε) (s : σ) :
    result (errorIf c e) s = (.error e, s) := by
  rw [result_errorIf, if_pos h]

theorem result_errorIf_neg {c : Prop} [Decidable c] (h : ¬ c) (e : ε) (s : σ) :
    result (errorIf c e) s = (.ok (), s) := by
  rw [result_errorIf, if_neg h]

theorem result_get (s : σ) : result (get : Program ε σ σ) s = (.ok s, s) := rfl

theorem onlyIf_pos {c : Prop} [Decidable c] (h : c) (p : Program ε σ Unit) : onlyIf c p = p :=
  if_pos h

theorem onlyIf_neg {c : Prop} [Decidable c] (h : ¬ c) (p : Program ε σ Unit) :
    onlyIf c p = pure () := if_neg h

/-! ## Programs that read -/

theorem reads_pure (a : α) : Reads (pure a : Program ε σ α) := fun _ => rfl

theorem reads_throw (e : ε) : Reads (throw e : Program ε σ α) := fun _ => rfl

theorem reads_get : Reads (get : Program ε σ σ) := fun _ => rfl

theorem reads_errorIf (c : Prop) [Decidable c] (e : ε) :
    Reads (errorIf c e : Program ε σ Unit) := by
  intro s
  rw [result_errorIf]

theorem Reads.bind (hp : Reads p) (hf : ∀ a, Reads (f a)) : Reads (p >>= f) := by
  intro s
  have hs := hp s
  rcases h : result p s with ⟨a | a, s'⟩
  · rw [result_bind_error h]
    rwa [h] at hs
  · rw [result_bind_ok h, hf a s']
    rwa [h] at hs

/-- A program that reads ends with the state that it began with. -/
theorem Reads.result_eq (hp : Reads p) (s : σ) : result p s = ((result p s).1, s) :=
  Prod.ext rfl (hp s)

/-! ## Programs that leave the view as it is -/

theorem Reads.frames (hp : Reads p) : Frames view p := fun s => congrArg view (hp s)

theorem frames_modify {g : σ → σ} (h : ∀ s, view (g s) = view s) :
    Frames view (modify g : Program ε σ PUnit) := h

theorem Frames.onlyIf {c : Prop} [Decidable c] {p : Program ε σ Unit} (hp : Frames view p) :
    Frames view (onlyIf c p) := by
  unfold Rollback.onlyIf
  split_ifs
  · exact hp
  · exact fun _ => rfl

theorem Frames.bind (hp : Frames view p) (hf : ∀ a, Frames view (f a)) :
    Frames view (p >>= f) := by
  intro s
  rcases h : result p s with ⟨a | a, s'⟩
  · have hs := hp s
    rw [result_bind_error h]
    rwa [h] at hs
  · have hs := hp s
    rw [result_bind_ok h, hf a s']
    rwa [h] at hs

/-! ## Atomic programs -/

theorem Frames.atomic (hp : Frames view p) : Atomic view p := by
  intro s e s' h
  have hs := hp s
  rwa [h] at hs

theorem Total.atomic (hp : Total p) : Atomic view p := by
  intro s e s' h
  obtain ⟨a, t, hok⟩ := hp s
  rw [hok] at h
  cases h

/-- What leaves the view as it is may come before an atomic program. -/
theorem Frames.bind_atomic (hp : Frames view p) (hf : ∀ a, Atomic view (f a)) :
    Atomic view (p >>= f) := by
  intro s e s' h
  have hs := hp s
  rcases hrun : result p s with ⟨a | a, t⟩
  · rw [result_bind_error hrun] at h
    cases h
    rwa [hrun] at hs
  · rw [result_bind_ok hrun] at h
    rw [hrun] at hs
    rw [hf a t e s' h, hs]

/-- What reads may come before a program that is atomic on the state. -/
theorem Reads.bind_atomicAt (hp : Reads p) (hf : ∀ a, AtomicAt view (f a) s) :
    AtomicAt view (p >>= f) s := by
  intro e s' h
  have hs := hp s
  rcases hrun : result p s with ⟨a | a, t⟩
  · rw [result_bind_error hrun] at h
    cases h
    rw [hrun] at hs
    exact congrArg view hs
  · rw [result_bind_ok hrun] at h
    rw [hrun] at hs
    obtain rfl : t = s := hs
    exact hf a e s' h

theorem atomicAt_get {f : σ → Program ε σ β} (hf : AtomicAt view (f s) s) :
    AtomicAt view (get >>= f) s := by
  intro e s' h
  rw [result_bind_ok (result_get s)] at h
  exact hf e s' h

/-! ## Programs that do not fail -/

theorem total_pure (a : α) : Total (pure a : Program ε σ α) := fun s => ⟨a, s, rfl⟩

theorem total_modify (g : σ → σ) : Total (modify g : Program ε σ PUnit) :=
  fun s => ⟨⟨⟩, g s, rfl⟩

theorem Total.bind (hp : Total p) (hf : ∀ a, Total (f a)) : Total (p >>= f) := by
  intro s
  obtain ⟨a, s', h⟩ := hp s
  rw [result_bind_ok h]
  exact hf a s'

end Lush.Rollback
