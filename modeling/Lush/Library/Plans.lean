import Mathlib

/-!
# Plans of computations

A computation that works in a bounded memory, and whose course does not depend on
what the memory contains, is described by a plan: the demands it makes on the
memory, one after the other, and what it ends with when all of them are met.
`Agrees` says of a program on states that it follows such a plan: the first demand
that is not met ends it.
-/

namespace Lush

/-- The demands of a computation, and what it ends with if all of them are met. -/
structure Plan (δ ε α : Type) where
  demands : List δ
  outcome : Except ε α

namespace Plan

variable {δ ε σ α β : Type}

instance : Monad (Plan δ ε) where
  pure a := ⟨[], .ok a⟩
  bind p f :=
    match p.outcome with
    | .error e => ⟨p.demands, .error e⟩
    | .ok a => ⟨p.demands ++ (f a).demands, (f a).outcome⟩

/-- What the computation ends with; `check` says what comes of a demand that is not
met. -/
def answer (check : δ → Option ε) (p : Plan δ ε α) : Except ε α :=
  match p.demands.findSome? check with
  | some e => .error e
  | none => p.outcome

variable {check : δ → Option ε}

@[simp] theorem answer_pure (a : α) : answer check (pure a : Plan δ ε α) = .ok a := rfl

theorem answer_bind (p : Plan δ ε α) (f : α → Plan δ ε β) :
    answer check (p >>= f) = answer check p >>= fun a => answer check (f a) := by
  obtain ⟨demands, outcome⟩ := p
  cases outcome with
  | error e =>
      change answer check ⟨demands, .error e⟩ = _
      unfold answer
      cases demands.findSome? check <;> rfl
  | ok a =>
      change answer check ⟨demands ++ (f a).demands, (f a).outcome⟩ = _
      unfold answer
      rw [List.findSome?_append]
      cases demands.findSome? check <;> rfl

/-- A demand of the first plan that is not met. -/
theorem findSome_bind_left {p : Plan δ ε α} {e : ε} (f : α → Plan δ ε β)
    (h : p.demands.findSome? check = some e) : (p >>= f).demands.findSome? check = some e := by
  obtain ⟨demands, outcome⟩ := p
  cases outcome with
  | error e' => exact h
  | ok a =>
      change (demands ++ (f a).demands).findSome? check = some e
      rw [List.findSome?_append, h]
      rfl

/-- A demand of the second plan that is not met. -/
theorem findSome_bind_right {p : Plan δ ε α} {a : α} {e : ε} (f : α → Plan δ ε β)
    (hp : answer check p = .ok a) (h : (f a).demands.findSome? check = some e) :
    (p >>= f).demands.findSome? check = some e := by
  obtain ⟨demands, outcome⟩ := p
  unfold answer at hp
  cases hmet : demands.findSome? check with
  | some e' => rw [hmet] at hp; cases hp
  | none =>
      rw [hmet] at hp
      change outcome = .ok a at hp
      subst hp
      change (demands ++ (f a).demands).findSome? check = some e
      rw [List.findSome?_append, hmet, h]
      rfl

/-- From every state the program `x` ends as the plan does: with a result that
satisfies `Q`, or because a demand is not met, or with a fault that satisfies `F`. -/
structure Agrees (check : δ → Option ε) (F : ε → Prop) (Q : α → Prop)
    (x : StateT σ (Except ε) α) (p : Plan δ ε α) : Prop where
  run : ∀ s, Prod.fst <$> x s = answer check p
  ok : ∀ a, answer check p = .ok a → Q a
  fails : ∀ e, answer check p = .error e → p.demands.findSome? check = some e ∨ F e

section Agrees

variable {F : ε → Prop} {Q R : α → Prop} {S : β → Prop} {x x' : StateT σ (Except ε) α}
  {p p' : Plan δ ε α}

/-- Nothing is demanded. -/
theorem Agrees.pure {a : α} (ha : Q a) :
    Agrees check F Q (Pure.pure a : StateT σ (Except ε) α) (Pure.pure a) where
  run _ := rfl
  ok a' h := by
    cases h
    exact ha
  fails e h := by cases h

theorem Agrees.bind {f : α → StateT σ (Except ε) β} {g : α → Plan δ ε β}
    (h : Agrees check F Q x p) (hf : ∀ a, Q a → Agrees check F S (f a) (g a)) :
    Agrees check F S (x >>= f) (p >>= g) where
  run s := by
    have hrun := h.run s
    rw [answer_bind, ← hrun]
    change Prod.fst <$> (x s >>= fun r => f r.1 r.2) = _
    cases hx : x s with
    | error e => rfl
    | ok r =>
        rw [hx] at hrun
        exact (hf r.1 (h.ok r.1 hrun.symm)).run r.2
  ok b hb := by
    rw [answer_bind] at hb
    cases hp : answer check p with
    | error e => rw [hp] at hb; cases hb
    | ok a =>
        rw [hp] at hb
        exact (hf a (h.ok a hp)).ok b hb
  fails e he := by
    rw [answer_bind] at he
    cases hp : answer check p with
    | error e' =>
        rw [hp] at he
        cases he
        exact (h.fails e hp).imp_left (findSome_bind_left g)
    | ok a =>
        rw [hp] at he
        exact ((hf a (h.ok a hp)).fails e he).imp_left (findSome_bind_right g hp)

theorem Agrees.mono (h : Agrees check F Q x p) (hQ : ∀ a, Q a → R a) : Agrees check F R x p where
  run := h.run
  ok a ha := hQ a (h.ok a ha)
  fails := h.fails

theorem Agrees.ite {c : Prop} [Decidable c] (h : c → Agrees check F Q x p)
    (h' : ¬ c → Agrees check F Q x' p') :
    Agrees check F Q (if c then x else x') (if c then p else p') := by
  by_cases hc : c
  · rw [if_pos hc, if_pos hc]; exact h hc
  · rw [if_neg hc, if_neg hc]; exact h' hc

end Agrees

end Plan

end Lush
