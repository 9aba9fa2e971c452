import Lush.Mapper.MannWhitney

/-!
# The Benjamini-Hochberg correction

`mapper-benjamini-hochberg` scales the p-values in sorted order, and then goes backward
through the order to replace each value by the smallest one that comes from there on.  For
p-values that tie only the last position of the run counts, where the rank is the number of
p-values that are not greater; so the result does not depend on the order of ties
(`benjaminiHochberg_exact`).
-/

namespace Lush.Mapper

open Insertion Heapsort

variable {K : Type} [Field K] [LinearOrder K]

/-! ## The code -/

/-- The scaled value at a position of the order. -/
def scaledValue (n : ℕ) (pvalues : ℕ → K) (order : ℕ → ℕ) (i : ℕ) : K :=
  let pv := pvalues (order i)
  let qi := pv * n / ((i : K) + 1)
  if qi > 1 then 1 else qi

/-- The q-values in sorted order. -/
def scaledValues (n : ℕ) (pvalues : ℕ → K) (order : ℕ → ℕ) : ℕ → K :=
  (List.range n).foldl
    (fun qvalues i => Function.update qvalues (order i) (scaledValue n pvalues order i)) fun _ => 0

/-- The backward pass over the positions before `i`. -/
def enforceMonotone (order : ℕ → ℕ) : ℕ → (ℕ → K) → ℕ → K
  | 0, qvalues => qvalues
  | i + 1, qvalues =>
      let qi := qvalues (order i)
      let qi1 := qvalues (order (i + 1))
      enforceMonotone order i (if qi > qi1 then Function.update qvalues (order i) qi1 else qvalues)

/-- `mapper-benjamini-hochberg`. -/
def mapperBenjaminiHochberg (n : ℕ) (pvalues : ℕ → K) : ℕ → K :=
  let order := argsort n pvalues
  enforceMonotone order (n - 1) (scaledValues n pvalues order)

/-! ## What it is to compute -/

/-- One, and the values `n * t / #{j : p_j ≤ t}` for the p-values `t` from `v` on. -/
def adjustedValues (n : ℕ) (pvalues : ℕ → K) (v : K) : Set K :=
  insert 1 {q | ∃ j < n, v ≤ pvalues j ∧
    q = n * pvalues j / (Nat.count (fun i => pvalues i ≤ pvalues j) n : K)}

/-! ## The two passes -/

variable {n i k : ℕ} {pvalues qvalues : ℕ → K} {order : ℕ → ℕ}

theorem scaledValues_apply (horder : Function.Injective order) (hk : k < n) :
    scaledValues n pvalues order (order k) = scaledValue n pvalues order k := by
  have hfold : ∀ m, k < m → (List.range m).foldl
      (fun (qvalues : ℕ → K) i =>
        Function.update qvalues (order i) (scaledValue n pvalues order i)) (fun _ => 0) (order k) = scaledValue n pvalues order k := by
    intro m
    induction m with
    | zero => exact fun hk => absurd hk (Nat.not_lt_zero k)
    | succ m ih =>
        intro hkm
        rw [List.range_succ, List.foldl_append, List.foldl_cons, List.foldl_nil]
        by_cases heq : k = m
        · rw [heq, Function.update_self]
        · rw [Function.update_of_ne (fun h => heq (horder h)), ih (by omega)]
  exact hfold n hk

omit [Field K] in
/-- **The backward pass** leaves at each position the smallest value from there on. -/
theorem enforceMonotone_isLeast {s : ℕ → K} (horder : Function.Injective order) (hi : i < n)
    (hbefore : ∀ k < i, qvalues (order k) = s k)
    (hafter : ∀ k, i ≤ k → k < n → IsLeast (s '' Set.Ico k n) (qvalues (order k))) :
    ∀ k < n, IsLeast (s '' Set.Ico k n) (enforceMonotone order i qvalues (order k)) := by
  induction i generalizing qvalues with
  | zero => exact fun k hk => hafter k (Nat.zero_le k) hk
  | succ i ih =>
      have hnext : ∀ k, (if qvalues (order i) > qvalues (order (i + 1)) then
          Function.update qvalues (order i) (qvalues (order (i + 1))) else qvalues) (order k) =
            if k = i then min (s i) (qvalues (order (i + 1))) else qvalues (order k) := by
        intro k
        rw [← hbefore i (Nat.lt_succ_self i)]
        rcases eq_or_ne k i with rfl | hne
        · rw [if_pos rfl]
          split_ifs with hgt
          · rw [Function.update_self, min_eq_right hgt.le]
          · rw [min_eq_left (not_lt.mp hgt)]
        · rw [if_neg hne]
          split_ifs
          · rw [Function.update_of_ne (fun h => hne (horder h))]
          · rfl
      rw [enforceMonotone]
      refine ih (by omega) (fun k hk => ?_) fun k hik hk => ?_
      · rw [hnext, if_neg (by omega)]
        exact hbefore k (by omega)
      · rw [hnext]
        split_ifs with heq
        · have hIco : Set.Ico i n = insert i (Set.Ico (i + 1) n) := by
            ext l
            simp only [Set.mem_Ico, Set.mem_insert_iff]
            omega
          rw [heq, hIco, Set.image_insert_eq]
          exact (hafter (i + 1) le_rfl hi).insert (s i)
        · exact hafter k (by omega) hk

/-- The result at each position. -/
theorem mapperBenjaminiHochberg_isLeast (horder : Function.Injective (argsort n pvalues))
    (hk : k < n) :
    IsLeast (scaledValue n pvalues (argsort n pvalues) '' Set.Ico k n)
      (mapperBenjaminiHochberg n pvalues (argsort n pvalues k)) := by
  refine enforceMonotone_isLeast horder (by omega) (fun k hk => ?_) (fun k hik hk => ?_) k hk
  · exact scaledValues_apply horder (by omega)
  · have hIco : Set.Ico k n = {k} := by
      ext l
      simp only [Set.mem_Ico, Set.mem_singleton_iff]
      omega
    rw [hIco, Set.image_singleton, scaledValues_apply horder hk]
    exact isLeast_singleton

/-! ## Ranks -/

omit [Field K] in
/-- What is up to a value comes first. -/
theorem Ordered.lt_count_iff (h : Ordered n pvalues order) (t : K) (hk : k < n) :
    k < Nat.count (fun i => pvalues i ≤ t) n ↔ pvalues (order k) ≤ t := by
  rw [← h.count_eq (· ≤ t)]
  obtain ⟨m, rfl⟩ : ∃ m, n = k + 1 + m := ⟨n - (k + 1), by omega⟩
  rw [Nat.count_add]
  constructor
  · intro hlt
    by_contra hgt
    -- Nothing is counted from the position `k` on.
    have hrest : Nat.count (fun i => pvalues (order (k + 1 + i)) ≤ t) m = 0 := by
      refine Nat.count_iff_forall_not.mpr fun i hi hle => hgt ?_
      exact (h.sorted k (k + 1 + i) (by omega) (by omega)).trans hle
    rw [hrest, Nat.count_succ, if_neg hgt] at hlt
    exact absurd (Nat.count_le (fun i => pvalues (order i) ≤ t) (n := k)) (by omega)
  · intro hle
    have hall : Nat.count (fun i => pvalues (order i) ≤ t) (k + 1) = k + 1 := by
      refine Nat.count_iff_forall.mpr fun i hi => ?_
      exact (h.sorted i k (by omega) hk).trans hle
    omega

omit [Field K] in
/-- The last position of a p-value is given by the number of those up to it. -/
theorem Ordered.last_eq (h : Ordered n pvalues order) (hk : k < n) :
    ∃ l, l + 1 = Nat.count (fun i => pvalues i ≤ pvalues (order k)) n ∧ l < n ∧
      (∀ i < n, pvalues (order i) ≤ pvalues (order k) → i ≤ l) ∧
      pvalues (order l) = pvalues (order k) := by
  have hlt := (h.lt_count_iff (pvalues (order k)) hk).mpr le_rfl
  have hle := Nat.count_le (fun i => pvalues i ≤ pvalues (order k)) (n := n)
  refine ⟨Nat.count (fun i => pvalues i ≤ pvalues (order k)) n - 1, by omega, by omega,
    fun i hi hik => ?_, le_antisymm ?_ (h.sorted k _ (by omega) (by omega))⟩
  · have hi' := (h.lt_count_iff (pvalues (order k)) hi).mpr hik
    omega
  · exact (h.lt_count_iff (pvalues (order k)) (by omega)).mp (by omega)

omit [Field K] in
/-- Every index has a position. -/
theorem Ordered.exists_position (h : Ordered n pvalues order) {m : ℕ} (hm : m < n) :
    ∃ k < n, order k = m := by
  obtain ⟨σ, hσ, rfl⟩ := h.permuted
  obtain ⟨k, rfl⟩ := σ.surjective m
  refine ⟨k, ?_, rfl⟩
  by_contra hge
  rw [hσ k (not_lt.mp hge)] at hm
  exact hge hm

omit [Field K] in
theorem Ordered.injective (h : Ordered n pvalues order) : Function.Injective order := by
  obtain ⟨σ, -, rfl⟩ := h.permuted
  exact σ.injective

/-! ## Exactness -/

variable [IsStrictOrderedRing K]

omit [IsStrictOrderedRing K] in
theorem scaledValue_eq (i : ℕ) :
    scaledValue n pvalues order i = min (pvalues (order i) * n / ((i : K) + 1)) 1 := by
  rw [scaledValue]
  split_ifs with h
  · exact (min_eq_right (le_of_lt h)).symm
  · exact (min_eq_left (not_lt.mp h)).symm

/-- A later position with the same p-value has a value that is not greater. -/
theorem scaledValue_anti {l : ℕ} (hpos : 0 ≤ pvalues (order k)) (hkl : k ≤ l)
    (heq : pvalues (order l) = pvalues (order k)) :
    scaledValue n pvalues order l ≤ scaledValue n pvalues order k := by
  rw [scaledValue_eq, scaledValue_eq, heq]
  refine min_le_min_right _ ?_
  have hcast : (k : K) ≤ l := Nat.cast_le.mpr hkl
  gcongr

/-- The value at the last position of a p-value is the adjusted one. -/
theorem Ordered.exists_adjusted (h : Ordered n pvalues order) (hp : ∀ k < n, 0 ≤ pvalues (order k))
    (hk : k < n) :
    ∃ l < n, (∀ i < n, pvalues (order i) ≤ pvalues (order k) → i ≤ l) ∧
      scaledValue n pvalues order l ≤ scaledValue n pvalues order k ∧
      scaledValue n pvalues order l = min (n * pvalues (order k) /
        (Nat.count (fun i => pvalues i ≤ pvalues (order k)) n : K)) 1 := by
  obtain ⟨l, hcount, hl, hlast, heq⟩ := h.last_eq hk
  refine ⟨l, hl, hlast, scaledValue_anti (hp k hk) (hlast k hk le_rfl) heq, ?_⟩
  rw [scaledValue_eq, ← hcount, heq, Nat.cast_add, Nat.cast_one, mul_comm]

/-- **Each q-value is the smallest adjusted value.** -/
theorem mapperBenjaminiHochberg_adjusted (hp : ∀ i < n, 0 ≤ pvalues i) {m : ℕ} (hm : m < n) :
    IsLeast (adjustedValues n pvalues (pvalues m)) (mapperBenjaminiHochberg n pvalues m) := by
  have h := ordered_argsort n pvalues
  have hlt : ∀ k < n, argsort n pvalues k < n := by
    intro k hk
    obtain ⟨l, hl, heq⟩ := h.permuted.exists_lt hk
    rwa [heq]
  have hpos : ∀ k < n, 0 ≤ pvalues (argsort n pvalues k) := fun k hk => hp _ (hlt k hk)
  obtain ⟨k, hk, rfl⟩ := h.exists_position hm
  obtain ⟨⟨l, ⟨hkl, hl⟩, hq⟩, hleast⟩ := mapperBenjaminiHochberg_isLeast h.injective hk
  constructor
  · obtain ⟨l', hl', hlast, hle, hvalue⟩ := h.exists_adjusted hpos hl
    have hmin : mapperBenjaminiHochberg n pvalues (argsort n pvalues k) =
        scaledValue n pvalues (argsort n pvalues) l' :=
      le_antisymm (hleast ⟨l', ⟨hkl.trans (hlast l hl le_rfl), hl'⟩, rfl⟩) (hle.trans_eq hq)
    rw [hmin, hvalue]
    rcases min_choice (n * pvalues (argsort n pvalues l) /
      (Nat.count (fun i => pvalues i ≤ pvalues (argsort n pvalues l)) n : K)) 1 with hc | hc
    · rw [hc]
      exact Or.inr ⟨argsort n pvalues l, hlt l hl, h.sorted k l hkl hl, rfl⟩
    · rw [hc]
      exact Or.inl rfl
  · rintro q (rfl | ⟨j, hj, hle, rfl⟩)
    · calc mapperBenjaminiHochberg n pvalues (argsort n pvalues k)
          ≤ scaledValue n pvalues (argsort n pvalues) k := hleast ⟨k, ⟨le_rfl, hk⟩, rfl⟩
        _ ≤ 1 := (scaledValue_eq k).trans_le (min_le_right _ _)
    · obtain ⟨j, hjn, rfl⟩ := h.exists_position hj
      obtain ⟨l', hl', hlast, -, hvalue⟩ := h.exists_adjusted hpos hjn
      calc mapperBenjaminiHochberg n pvalues (argsort n pvalues k)
          ≤ scaledValue n pvalues (argsort n pvalues) l' := hleast ⟨l', ⟨hlast k hk hle, hl'⟩, rfl⟩
        _ ≤ _ := hvalue.trans_le (min_le_left _ _)

omit [IsStrictOrderedRing K] in
theorem adjustedValues_anti {v v' : K} (h : v ≤ v') :
    adjustedValues n pvalues v' ⊆ adjustedValues n pvalues v := by
  rintro q (rfl | ⟨j, hj, hle, rfl⟩)
  · exact Or.inl rfl
  · exact Or.inr ⟨j, hj, h.trans hle, rfl⟩

omit [IsStrictOrderedRing K] in
/-- The adjusted values do not depend on the order of the p-values. -/
theorem adjustedValues_comp {σ : Equiv.Perm ℕ} (hσ : ∀ i, n ≤ i → σ i = i) (v : K) :
    adjustedValues n (pvalues ∘ σ) v ⊆ adjustedValues n pvalues v := by
  have hperm : Permuted n pvalues (pvalues ∘ σ) := ⟨σ, hσ, rfl⟩
  rintro q (rfl | ⟨j, hj, hle, rfl⟩)
  · exact Or.inl rfl
  · refine Or.inr ⟨σ j, ?_, hle, ?_⟩
    · by_contra hge
      have hfix : σ (σ j) = σ j := hσ _ (not_lt.mp hge)
      exact hge (by rwa [σ.injective hfix])
    · rw [count_of_permuted hperm (· ≤ (pvalues ∘ σ) j)]
      rfl

/-- **The q-values are exact**: each one is the smallest adjusted value, and so they depend on
the p-values only, are monotone in them, and are permuted with them. -/
theorem benjaminiHochberg_exact (n : ℕ) (pvalues : ℕ → K)
    (hp : ∀ i < n, 0 ≤ pvalues i ∧ pvalues i ≤ 1) :
    (∀ i < n, IsLeast (adjustedValues n pvalues (pvalues i))
      (mapperBenjaminiHochberg n pvalues i)) ∧
    (∀ i < n, ∀ j < n, pvalues i = pvalues j →
      mapperBenjaminiHochberg n pvalues i = mapperBenjaminiHochberg n pvalues j) ∧
    (∀ i < n, ∀ j < n, pvalues i ≤ pvalues j →
      mapperBenjaminiHochberg n pvalues i ≤ mapperBenjaminiHochberg n pvalues j) ∧
    ∀ σ : Equiv.Perm ℕ, (∀ i, n ≤ i → σ i = i) → ∀ i < n,
      mapperBenjaminiHochberg n (pvalues ∘ σ) i = mapperBenjaminiHochberg n pvalues (σ i) := by
  have hpos : ∀ i < n, 0 ≤ pvalues i := fun i hi => (hp i hi).1
  have hleast := fun i (hi : i < n) => mapperBenjaminiHochberg_adjusted hpos hi
  have hmono : ∀ i < n, ∀ j < n, pvalues i ≤ pvalues j →
      mapperBenjaminiHochberg n pvalues i ≤ mapperBenjaminiHochberg n pvalues j :=
    fun i hi j hj hle => (hleast i hi).2 (adjustedValues_anti hle (hleast j hj).1)
  refine ⟨hleast, fun i hi j hj heq => ?_, hmono, fun σ hσ i hi => ?_⟩
  · exact le_antisymm (hmono i hi j hj heq.le) (hmono j hj i hi heq.ge)
  · have hlt : ∀ i < n, σ i < n := by
      intro i hi
      obtain ⟨k, hk, heq⟩ := @Permuted.exists_lt _ n id σ i ⟨σ, hσ, rfl⟩ hi
      rwa [heq]
    have hσ' : ∀ i, n ≤ i → σ.symm i = i := fun i hi => σ.symm_apply_eq.mpr (hσ i hi).symm
    have hback : (pvalues ∘ σ) ∘ σ.symm = pvalues := by
      funext i
      simp
    have hset : adjustedValues n (pvalues ∘ σ) (pvalues (σ i)) =
        adjustedValues n pvalues (pvalues (σ i)) := by
      apply Set.Subset.antisymm (adjustedValues_comp hσ _)
      have hsub := @adjustedValues_comp K _ _ n (pvalues ∘ σ) σ.symm hσ' (pvalues (σ i))
      rwa [hback] at hsub
    have hpermuted := @mapperBenjaminiHochberg_adjusted K _ _ n (pvalues ∘ σ) _
      (fun i hi => hpos _ (hlt i hi)) i hi
    exact (hset ▸ hpermuted).unique (hleast _ (hlt i hi))

theorem benjaminiHochberg_exact_half :
    (∀ i < 3, IsLeast (adjustedValues 3 (fun _ => (1 : ℚ) / 2) (1 / 2))
      (mapperBenjaminiHochberg 3 (fun _ => 1 / 2) i)) ∧
    (∀ i < 3, ∀ j < 3, (1 : ℚ) / 2 = 1 / 2 →
      mapperBenjaminiHochberg 3 (fun _ => (1 : ℚ) / 2) i =
        mapperBenjaminiHochberg 3 (fun _ => 1 / 2) j) ∧
    (∀ i < 3, ∀ j < 3, (1 : ℚ) / 2 ≤ 1 / 2 →
      mapperBenjaminiHochberg 3 (fun _ => (1 : ℚ) / 2) i ≤
        mapperBenjaminiHochberg 3 (fun _ => 1 / 2) j) ∧
    ∀ σ : Equiv.Perm ℕ, (∀ i, 3 ≤ i → σ i = i) → ∀ i < 3,
      mapperBenjaminiHochberg 3 ((fun _ => (1 : ℚ) / 2) ∘ σ) i =
        mapperBenjaminiHochberg 3 (fun _ => 1 / 2) (σ i) :=
  benjaminiHochberg_exact 3 (fun _ => 1 / 2) fun _ _ => by norm_num

end Lush.Mapper
