import Mathlib

/-!
# Linked lists in memory

A list in memory starts at a head cell and goes from cell to cell along `next`
until there is none (`Chain`).  A cell is taken out by a change of the cell before
it (`Chain.unlink`), and put at the end by a change of the last cell (`Chain.snoc`).
-/

namespace Lush.Chains

variable {α : Type*}

/-- The last cell of a list with a head cell. -/
def last : α → List α → α
  | a, [] => a
  | _, b :: l => last b l

/-- The cells that come after `a`, one after the other, up to the last one. -/
def Chain (next : α → Option α) : α → List α → Prop
  | a, [] => next a = none
  | a, b :: l => next a = some b ∧ Chain next b l

variable {next next' : α → Option α} {a b c p : α} {l l' : List α}

@[simp] theorem last_nil : last a [] = a := rfl

@[simp] theorem last_cons : last a (b :: l) = last b l := rfl

theorem last_append : last a (l ++ l') = last (last a l) l' := by
  induction l generalizing a with
  | nil => rfl
  | cons b l ih => exact ih

@[simp] theorem last_snoc : last a (l ++ [b]) = b := by
  rw [last_append]
  rfl

theorem last_mem : last a l ∈ a :: l := by
  induction l generalizing a with
  | nil => exact List.mem_singleton_self a
  | cons b l ih => exact List.mem_cons_of_mem _ ih

/-- The last of different cells is the head only if there is no other. -/
theorem last_eq_head_iff (h : (a :: l).Nodup) : last a l = a ↔ l = [] := by
  cases l with
  | nil => exact iff_of_true rfl rfl
  | cons b l =>
      refine iff_of_false (fun heq => ?_) (List.cons_ne_nil b l)
      have hmem : a ∈ b :: l := by
        rw [← heq, last_cons]
        exact last_mem
      exact (List.nodup_cons.mp h).1 hmem

/-- Only the links of its own cells matter to a list. -/
theorem Chain.congr (h : Chain next a l) (heq : ∀ b ∈ a :: l, next b = next' b) :
    Chain next' a l := by
  induction l generalizing a with
  | nil => exact (heq a (by simp)).symm.trans h
  | cons b l ih =>
      refine ⟨(heq a (by simp)).symm.trans h.1, ih h.2 fun c hc => ?_⟩
      exact heq c (List.mem_cons_of_mem _ hc)

/-- A list goes on after each of its cells. -/
theorem Chain.drop (h : Chain next a (l ++ l')) : Chain next (last a l) l' := by
  induction l generalizing a with
  | nil => exact h
  | cons b l ih => exact ih h.2

/-- The end of a list has no next cell, and every other cell has one. -/
theorem Chain.next_last (h : Chain next a l) : next (last a l) = none := by
  rw [← List.append_nil l] at h
  exact h.drop

theorem Chain.next_cell (h : Chain next a (l ++ p :: l')) : next (last a l) = some p :=
  h.drop.1

/-- The cells of a list are determined by its head. -/
theorem Chain.unique (h : Chain next a l) (h' : Chain next a l') : l = l' := by
  induction l generalizing a l' with
  | nil =>
      cases l' with
      | nil => rfl
      | cons b l' => exact absurd (h.symm.trans h'.1) (by simp)
  | cons b l ih =>
      cases l' with
      | nil => exact absurd (h'.symm.trans h.1) (by simp)
      | cons c l' =>
          obtain rfl : b = c := Option.some.inj (h.1.symm.trans h'.1)
          rw [ih h.2 h'.2]

section Update

variable [DecidableEq α]

/-- **A cell is taken out.** -/
theorem Chain.unlink (h : Chain next a (l ++ p :: l')) (hnodup : (a :: (l ++ p :: l')).Nodup) :
    Chain (Function.update (Function.update next (last a l) (next p)) p none) a (l ++ l') := by
  induction l generalizing a with
  | nil =>
      obtain ⟨ha, hp⟩ := List.nodup_cons.mp hnodup
      rw [List.nil_append] at ha hp
      have hap : a ≠ p := fun heq => ha (by simp [heq])
      obtain ⟨-, hrest⟩ := h
      have hnext : Function.update (Function.update next a (next p)) p none a = next p := by
        rw [Function.update_of_ne hap, Function.update_self]
      cases l' with
      | nil => exact hnext.trans hrest
      | cons b l' =>
          refine ⟨hnext.trans hrest.1, hrest.2.congr fun c hc => ?_⟩
          have hcp : c ≠ p := fun heq => (List.nodup_cons.mp hp).1 (heq ▸ hc)
          have hca : c ≠ a := fun heq => ha (List.mem_cons_of_mem _ (heq ▸ hc))
          rw [Function.update_of_ne hcp, last_nil, Function.update_of_ne hca]
  | cons b l ih =>
      obtain ⟨ha, hb⟩ := List.nodup_cons.mp hnodup
      have hlast : last b l ∈ b :: l ++ p :: l' :=
        List.mem_append_left _ last_mem
      have hap : a ≠ p := fun heq => ha (by simp [heq])
      have hal : a ≠ last b l := fun heq => ha (heq ▸ hlast)
      refine ⟨?_, ih h.2 hb⟩
      rw [last_cons, Function.update_of_ne hap, Function.update_of_ne hal]
      exact h.1

/-- **A cell is put at the end.** -/
theorem Chain.snoc (h : Chain next a l) (hc : c ∉ a :: l) (hnodup : (a :: l).Nodup) :
    Chain (Function.update (Function.update next c none) (last a l) (some c)) a (l ++ [c]) := by
  induction l generalizing a with
  | nil =>
      have hca : c ≠ a := fun heq => hc (by simp [heq])
      refine ⟨Function.update_self .., ?_⟩
      change Function.update (Function.update next c none) a (some c) c = none
      rw [Function.update_of_ne hca, Function.update_self]
  | cons b l ih =>
      obtain ⟨ha, hb⟩ := List.nodup_cons.mp hnodup
      have hac : a ≠ c := fun heq => hc (by simp [heq])
      have hal : a ≠ last b l := fun heq => ha (heq ▸ last_mem)
      refine ⟨?_, ih h.2 (fun hmem => hc (List.mem_cons_of_mem _ hmem)) hb⟩
      rw [last_cons, Function.update_of_ne hal, Function.update_of_ne hac]
      exact h.1

end Update

end Lush.Chains
