import Mathlib

/-!
# Bisection

A binary search for the first position that does not have a property.  When the positions
with the property are an initial segment, the search finds its end (`bisect_spec`).
-/

namespace Lush.Bisection

/-- The search between `lo` and `hi`. -/
def bisect (p : ℕ → Bool) (lo hi : ℕ) : ℕ :=
  if lo < hi then
    let mid := lo + (hi - lo) / 2
    if p mid then bisect p (mid + 1) hi else bisect p lo mid
  else lo
termination_by hi - lo

variable {p : ℕ → Bool} {lo hi : ℕ}

/-- The positions before the one that is found have the property, those from it on have
not. -/
theorem bisect_spec (hp : ∀ i j, i ≤ j → j < hi → p j = true → p i = true) (hle : lo ≤ hi) :
    lo ≤ bisect p lo hi ∧ bisect p lo hi ≤ hi ∧ (∀ i, lo ≤ i → i < bisect p lo hi → p i = true) ∧
      ∀ i, bisect p lo hi ≤ i → i < hi → p i = false := by
  induction lo, hi using bisect.induct p with
  | case1 lo hi hlt mid hmid ih =>
      obtain ⟨hlo, hhi, hbelow, habove⟩ := ih hp (by omega)
      have hstep : bisect p lo hi = bisect p (mid + 1) hi := by rw [bisect, if_pos hlt, if_pos hmid]
      rw [hstep]
      refine ⟨by omega, hhi, fun i hi' hlt' => ?_, habove⟩
      -- What is at or before `mid` has the property since `mid` has it.
      rcases Nat.lt_or_ge mid i with hi | hi
      · exact hbelow i hi hlt'
      · exact hp i mid hi (by omega) hmid
  | case2 lo hi hlt mid hmid ih =>
      obtain ⟨hlo, hhi, hbelow, habove⟩ :=
        ih (fun i j hij hj => hp i j hij (by omega)) (by omega)
      have hstep : bisect p lo hi = bisect p lo mid := by rw [bisect, if_pos hlt, if_neg hmid]
      rw [hstep]
      refine ⟨hlo, by omega, hbelow, fun i hi' hlt' => ?_⟩
      rcases Nat.lt_or_ge i mid with hi | hi
      · exact habove i hi' hi
      · exact Bool.eq_false_iff.mpr fun h => hmid (hp mid i hi hlt' h)
  | case3 lo hi hge =>
      rw [bisect, if_neg hge]
      exact ⟨le_rfl, hle, fun i _ _ => by omega, fun i _ _ => by omega⟩

end Lush.Bisection
