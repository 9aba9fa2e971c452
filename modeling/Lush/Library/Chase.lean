import Mathlib

/-!
# The tortoise and the hare

A chain of references is followed twice: the hare makes one step at a time, and
the tortoise one step every second time.  In a finite type the hare meets the
tortoise, after at most twice as many steps as there are elements, so that a
loop which stops when they meet ends (`lt_of_not_meets`).  When they meet, the
hare has been everywhere it can get to (`MeetsAt.cover`).
-/

namespace Lush.Chase

variable {α : Type*}

/-- The step `n + 1` of the hare brings it where the tortoise is. -/
def Meets (f : α → α) (x : α) (n : ℕ) : Prop :=
  f^[n + 1] x = f^[(n + 1) / 2] x

instance [DecidableEq α] (f : α → α) (x : α) (n : ℕ) : Decidable (Meets f x n) :=
  inferInstanceAs (Decidable (_ = _))

/-- The same, with a tortoise that makes its first step along with the first step
of the hare (`phase` 1), or along with the second (`phase` 0). -/
def MeetsAt (phase : ℕ) (f : α → α) (x : α) (n : ℕ) : Prop :=
  f^[n + 1] x = f^[(n + phase) / 2] x

/-- **When the hare meets the tortoise it has been everywhere.** -/
theorem MeetsAt.cover {phase : ℕ} (hphase : phase ≤ 1) {f : α → α} {x : α} {n : ℕ}
    (h : MeetsAt phase f x n) (m : ℕ) : ∃ j ≤ n, f^[m] x = f^[j] x := by
  induction m with
  | zero => exact ⟨0, Nat.zero_le n, rfl⟩
  | succ m ih =>
      obtain ⟨j, hj, heq⟩ := ih
      have hsucc : f^[m + 1] x = f^[j + 1] x := by
        rw [Function.iterate_succ_apply', heq, Function.iterate_succ_apply']
      rcases hj.lt_or_eq with hlt | rfl
      · exact ⟨j + 1, hlt, hsucc⟩
      · exact ⟨(j + phase) / 2, by omega, hsucc.trans h⟩

/-- Steps beyond the start of a period may be made a whole number of periods
further. -/
theorem iterate_add_mul {f : α → α} {x : α} {i period : ℕ} (h : f^[i + period] x = f^[i] x)
    {m : ℕ} (hm : i ≤ m) (k : ℕ) : f^[m + period * k] x = f^[m] x := by
  obtain ⟨d, rfl⟩ := Nat.exists_eq_add_of_le hm
  have hone : f^[d + i + period] x = f^[d + i] x := by
    rw [Nat.add_assoc, Function.iterate_add_apply, h, ← Function.iterate_add_apply]
  induction k with
  | zero => rw [Nat.mul_zero, Nat.add_zero]
  | succ k ih =>
      calc f^[i + d + period * (k + 1)] x = f^[period * k + (d + i + period)] x := by
            rw [Nat.mul_succ]
            congr 1
            omega
        _ = f^[period * k] (f^[d + i] x) := by rw [Function.iterate_add_apply, hone]
        _ = f^[i + d + period * k] x := by
            rw [← Function.iterate_add_apply]
            congr 1
            omega
        _ = f^[i + d] x := ih

variable [Fintype α]

/-- Two of the first places are the same. -/
theorem exists_repeat (f : α → α) (x : α) :
    ∃ i j, i < j ∧ j ≤ Fintype.card α ∧ f^[j] x = f^[i] x := by
  have hcard : Fintype.card α < Fintype.card (Fin (Fintype.card α + 1)) := by simp
  obtain ⟨i, j, hne, heq⟩ := Fintype.exists_ne_map_eq_of_card_lt
    (fun k : Fin (Fintype.card α + 1) => f^[k] x) hcard
  rcases Nat.lt_or_gt_of_ne (Fin.val_ne_of_ne hne) with hlt | hlt
  · exact ⟨i, j, hlt, by omega, heq.symm⟩
  · exact ⟨j, i, hlt, by omega, heq⟩

/-- **The hare meets the tortoise**, whenever the tortoise makes its first step. -/
theorem exists_meetsAt {phase : ℕ} (hphase : phase ≤ 1) (f : α → α) (x : α) :
    ∃ n, n < 2 * Fintype.card α ∧ MeetsAt phase f x n := by
  obtain ⟨i, j, hij, hj, heq⟩ := exists_repeat f x
  -- the last multiple of the period that is at most `j`
  obtain ⟨period, rfl⟩ := Nat.exists_eq_add_of_le hij.le
  have hpos : 0 < period := by omega
  obtain ⟨k, hlow, hhigh⟩ : ∃ k, i < period * k ∧ period * k ≤ i + period := by
    refine ⟨(i + period) / period, ?_, Nat.mul_div_le _ _⟩
    have := Nat.lt_mul_div_succ (i + period) hpos
    rw [Nat.mul_add] at this
    omega
  refine ⟨2 * (period * k) - 2 + phase, by omega, ?_⟩
  have hsucc : 2 * (period * k) - 2 + phase + 1 = period * k - 1 + phase + period * k := by omega
  have hhalf : (2 * (period * k) - 2 + phase + phase) / 2 = period * k - 1 + phase := by omega
  rw [MeetsAt, hsucc, hhalf]
  exact iterate_add_mul heq (by omega) k

/-- As long as the hare has not met the tortoise, the steps are few. -/
theorem lt_of_not_meetsAt {phase : ℕ} (hphase : phase ≤ 1) {f : α → α} {x : α} {n : ℕ}
    (h : ∀ m < n, ¬MeetsAt phase f x m) : n < 2 * Fintype.card α := by
  obtain ⟨m, hm, hmeets⟩ := exists_meetsAt hphase f x
  by_contra hge
  exact h m (by omega) hmeets

theorem lt_of_not_meets {f : α → α} {x : α} {n : ℕ} (h : ∀ m < n, ¬Meets f x m) :
    n < 2 * Fintype.card α :=
  lt_of_not_meetsAt le_rfl h

end Lush.Chase
