import Mathlib

/-!
# Density connectivity

Some points are core points, and some points are near each other.  Two core points are
linked when a chain of core points leads from one to the other, each near the next.  A
labelling is a density clustering when it separates the core points exactly by their links,
gives the points with no core point near them no cluster, and every other point the
cluster of a core point near it (`Clustering`).
-/

namespace Lush.Density

variable {α : Type*} {near : α → α → Prop} {core : α → Prop} {a b c : α}

/-- A chain of core points, each near the next, leads from `a` to `b`. -/
def Linked (near : α → α → Prop) (core : α → Prop) : α → α → Prop :=
  Relation.ReflTransGen fun a b => near a b ∧ core b

theorem Linked.refl (a : α) : Linked near core a a := Relation.ReflTransGen.refl

theorem Linked.trans (h : Linked near core a b) (h' : Linked near core b c) :
    Linked near core a c := Relation.ReflTransGen.trans h h'

theorem Linked.tail (h : Linked near core a b) (hnear : near b c) (hcore : core c) :
    Linked near core a c := Relation.ReflTransGen.tail h ⟨hnear, hcore⟩

theorem Linked.mono {core' : α → Prop} (h : Linked near core a b) (hcore : ∀ a, core a → core' a) :
    Linked near core' a b := by
  induction h with
  | refl => exact .refl a
  | tail _ hstep ih => exact ih.tail hstep.1 (hcore _ hstep.2)

theorem Linked.core_right (h : Linked near core a b) (ha : core a) : core b := by
  cases h with
  | refl => exact ha
  | tail _ hstep => exact hstep.2

theorem Linked.symm (hsymm : ∀ a b, near a b → near b a) (h : Linked near core a b)
    (ha : core a) : Linked near core b a := by
  induction h with
  | refl => exact .refl a
  | tail h hstep ih =>
      have hb := Linked.core_right h ha
      exact ((Linked.refl _).tail (hsymm _ _ hstep.1) hb).trans ih

/-- A labelling of the points `points` by `k` clusters, with `-1` for the points in none. -/
structure Clustering (points : α → Prop) (near : α → α → Prop) (core : α → Prop) (k : ℕ)
    (labels : α → ℤ) : Prop where
  range : ∀ x, points x → -1 ≤ labels x ∧ labels x < k
  linked : ∀ a b, core a → core b → (labels a = labels b ↔ Linked near core a b)
  noise : ∀ x, points x → (labels x = -1 ↔ ¬∃ c, core c ∧ near c x)
  border : ∀ x, points x → ¬core x → labels x ≠ -1 →
    ∃ c, core c ∧ near c x ∧ labels c = labels x

end Lush.Density
