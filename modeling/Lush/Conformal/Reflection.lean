import Lush.Conformal.JackknifePlus
import Lush.Conformal.Anomaly

/-!
# Reflected predictions

When all predictions change their sign, the lower ends of the intervals become the upper
ends.  `_cp-jkplus-intervals` takes the lower end at the rank `⌈(n + 1) α⌉` from below, and
the upper end at the rank `⌊(n + 1) α⌋` from above, or at the first rank if that is zero:
the two agree when `(n + 1) α` is an integer or at most one.  In all other cases the
intervals are reflected only if the ends at the two ranks tie (`reflected_iff`).
-/

namespace Lush.Conformal

variable {K : Type} [Field K] [LinearOrder K] {n t : ℕ}

/-! ## Ranks -/

/-- The lower ends of the intervals of the models for one test point. -/
def lowerEnds (looPreds : Matrix (Fin n) (Fin t) K) (looResid : Fin n → K) (j : Fin t) : List K :=
  List.ofFn fun i => looPreds i j - looResid i

/-- The upper ends of the intervals of the models for one test point. -/
def upperEnds (looPreds : Matrix (Fin n) (Fin t) K) (looResid : Fin n → K) (j : Fin t) : List K :=
  List.ofFn fun i => looPreds i j + looResid i

/-- With the negated predictions, the intervals are `[-hi, -lo]`. -/
def Reflected [FloorRing K] (looPreds : Matrix (Fin n) (Fin t) K) (looResid : Fin n → K)
    (alpha : K) : Prop :=
  ∀ j, cpJkplusIntervals (-looPreds) looResid alpha j ⟨0, Nat.zero_lt_two⟩ =
      -cpJkplusIntervals looPreds looResid alpha j ⟨1, Nat.one_lt_two⟩ ∧
    cpJkplusIntervals (-looPreds) looResid alpha j ⟨1, Nat.one_lt_two⟩ =
      -cpJkplusIntervals looPreds looResid alpha j ⟨0, Nat.zero_lt_two⟩

/-- At each test point the lower ends of the ranks `k` and `k + 1` from below tie, and the
upper ends of these ranks from above. -/
def Tied (looPreds : Matrix (Fin n) (Fin t) K) (looResid : Fin n → K) (k : ℕ) : Prop :=
  ∀ j, nth k (lowerEnds looPreds looResid j) = nth (k + 1) (lowerEnds looPreds looResid j) ∧
    nth (n - k) (upperEnds looPreds looResid j) = nth (n - k + 1) (upperEnds looPreds looResid j)

section Sorting

variable [IsStrictOrderedRing K]

/-- Negated values come in the opposite order. -/
theorem insertionSort_map_neg (l : List K) :
    (l.map (-·)).insertionSort (· ≤ ·) = ((l.insertionSort (· ≤ ·)).map (-·)).reverse := by
  have hperm : ((l.map (-·)).insertionSort (· ≤ ·)).Perm
      ((l.insertionSort (· ≤ ·)).map (-·)).reverse :=
    calc ((l.map (-·)).insertionSort (· ≤ ·)).Perm (l.map (-·)) := List.perm_insertionSort _ _
      _ |>.Perm ((l.insertionSort (· ≤ ·)).map (-·)) := (List.perm_insertionSort _ l).symm.map _
      _ |>.Perm ((l.insertionSort (· ≤ ·)).map (-·)).reverse := (List.reverse_perm _).symm
  have hsorted : ((l.insertionSort (· ≤ ·)).map (-·)).reverse.Pairwise (· ≤ ·) := by
    rw [List.pairwise_reverse, List.pairwise_map]
    exact (List.pairwise_insertionSort (· ≤ ·) l).imp fun h => neg_le_neg h
  exact hperm.eq_of_pairwise (fun a b _ _ => le_antisymm) (List.pairwise_insertionSort _ _) hsorted

/-- The `k`-th value from below becomes the `k`-th value from above. -/
theorem nth_map_neg {l : List K} {k : ℕ} (hk : 0 < k) (hl : k ≤ l.length) :
    nth k (l.map (-·)) = -nth (l.length + 1 - k) l := by
  have hlen : (l.insertionSort (· ≤ ·)).length = l.length := List.length_insertionSort _ _
  rw [nth, nth, insertionSort_map_neg, List.getD_eq_getElem _ _ (by simp; omega),
    List.getD_eq_getElem _ _ (by omega), List.getElem_reverse, List.getElem_map]
  simp only [List.length_map, hlen]
  congr 2
  omega

variable {looPreds : Matrix (Fin n) (Fin t) K} {looResid : Fin n → K} {j : Fin t}

omit [LinearOrder K] [IsStrictOrderedRing K] in
theorem lowerEnds_neg :
    lowerEnds (-looPreds) looResid j = (upperEnds looPreds looResid j).map (-·) := by
  rw [lowerEnds, upperEnds, List.map_ofFn]
  congr 1
  funext i
  simp only [Function.comp_apply, Matrix.neg_apply]
  ring

omit [LinearOrder K] [IsStrictOrderedRing K] in
theorem upperEnds_neg :
    upperEnds (-looPreds) looResid j = (lowerEnds looPreds looResid j).map (-·) := by
  rw [lowerEnds, upperEnds, List.map_ofFn]
  congr 1
  funext i
  simp only [Function.comp_apply, Matrix.neg_apply]
  ring

theorem nth_lowerEnds_neg {k : ℕ} (hk : 0 < k) (hn : k ≤ n) :
    nth k (lowerEnds (-looPreds) looResid j) = -nth (n + 1 - k) (upperEnds looPreds looResid j) := by
  rw [lowerEnds_neg, nth_map_neg hk (by simpa [upperEnds] using hn)]
  simp [upperEnds]

theorem nth_upperEnds_neg {k : ℕ} (hk : 0 < k) (hn : k ≤ n) :
    nth k (upperEnds (-looPreds) looResid j) = -nth (n + 1 - k) (lowerEnds looPreds looResid j) := by
  rw [upperEnds_neg, nth_map_neg hk (by simpa [lowerEnds] using hn)]
  simp [lowerEnds]

end Sorting

/-! ## Quantiles -/

variable [FloorRing K] [IsStrictOrderedRing K] {raw alpha : K}

/-- The rounding of the source is to the integer above. -/
theorem quantileIndex_eq (h : 0 ≤ raw) : quantileIndex n raw = min (⌈raw⌉₊ - 1) (n - 1) := by
  have hnat : (⌈raw⌉₊ : ℤ) = ⌈raw⌉ := Int.natCast_ceil_eq_ceil h
  simp only [quantileIndex, truncate_add_one h]
  split_ifs <;> omega

/-- The rank of the lower ends, from below. -/
theorem cpJkplusIntervals_lower {looPreds : Matrix (Fin n) (Fin t) K} {looResid : Fin n → K}
    (h0 : 0 < ((n : K) + 1) * alpha) (hn : ((n : K) + 1) * alpha ≤ n) (j : Fin t) :
    cpJkplusIntervals looPreds looResid alpha j 0 =
      nth ⌈((n : K) + 1) * alpha⌉₊ (lowerEnds looPreds looResid j) := by
  have hle : ⌈((n : K) + 1) * alpha⌉₊ ≤ n := Nat.ceil_le.mpr hn
  have hindex : quantileIndex n (((n : K) + 1) * alpha) = ⌈((n : K) + 1) * alpha⌉₊ - 1 := by
    rw [quantileIndex_eq h0.le, min_eq_left (by omega)]
  show List.getD _ (quantileIndex n (((n : K) + 1) * alpha)) 0 = _
  rw [hindex]
  rfl

/-- The rank of the upper ends, from above. -/
theorem cpJkplusIntervals_upper {looPreds : Matrix (Fin n) (Fin t) K} {looResid : Fin n → K}
    (h0 : 0 ≤ ((n : K) + 1) * alpha) (hn : ((n : K) + 1) * alpha ≤ n) (j : Fin t) :
    cpJkplusIntervals looPreds looResid alpha j 1 =
      nth (n + 1 - max ⌊((n : K) + 1) * alpha⌋₊ 1) (upperEnds looPreds looResid j) := by
  have hraw : ((n : K) + 1) * (1 - alpha) = ((n + 1 : ℕ) : K) - ((n : K) + 1) * alpha := by
    push_cast
    ring
  have hnonneg : 0 ≤ ((n : K) + 1) * (1 - alpha) := by
    rw [hraw]
    push_cast
    linarith
  have hceil : ⌈((n : K) + 1) * (1 - alpha)⌉₊ = n + 1 - ⌊((n : K) + 1) * alpha⌋₊ := by
    have hfloor : (⌊((n : K) + 1) * alpha⌋₊ : ℤ) = ⌊((n : K) + 1) * alpha⌋ :=
      Int.natCast_floor_eq_floor h0
    have hle : ⌊((n : K) + 1) * alpha⌋₊ ≤ n := Nat.floor_le_of_le hn
    have hint : (⌈((n : K) + 1) * (1 - alpha)⌉₊ : ℤ) =
        ((n + 1 : ℕ) : ℤ) - ⌊((n : K) + 1) * alpha⌋ := by
      rw [Int.natCast_ceil_eq_ceil hnonneg, hraw, sub_eq_add_neg, Int.ceil_natCast_add,
        Int.ceil_neg, sub_eq_add_neg]
    omega
  have hindex : quantileIndex n (((n : K) + 1) * (1 - alpha)) =
      n + 1 - max ⌊((n : K) + 1) * alpha⌋₊ 1 - 1 := by
    rw [quantileIndex_eq hnonneg, hceil]
    omega
  show List.getD _ (quantileIndex n (((n : K) + 1) * (1 - alpha))) 0 = _
  rw [hindex]
  rfl

/-! ## When the intervals are reflected -/

/-- The two ranks agree when no rounding takes place, or when the first rank is used. -/
theorem ceil_eq_max_floor_iff {x : K} (h0 : 0 < x) :
    ⌈x⌉₊ = max ⌊x⌋₊ 1 ↔ x ≤ 1 ∨ ∃ k : ℕ, x = k := by
  constructor
  · intro h
    rcases Nat.eq_zero_or_pos ⌊x⌋₊ with hzero | hpos
    · have hone : ⌈x⌉₊ ≤ 1 := by omega
      exact Or.inl (by simpa using Nat.ceil_le.mp hone)
    · have heq : ⌈x⌉₊ = ⌊x⌋₊ := by omega
      refine Or.inr ⟨⌊x⌋₊, le_antisymm ?_ (Nat.floor_le h0.le)⟩
      calc x ≤ ⌈x⌉₊ := Nat.le_ceil x
        _ = ⌊x⌋₊ := by rw [heq]
  · rintro (hle | ⟨k, rfl⟩)
    · have hceil : ⌈x⌉₊ ≤ 1 := Nat.ceil_le.mpr (by simpa using hle)
      have hpos : 0 < ⌈x⌉₊ := Nat.ceil_pos.mpr h0
      have hfloor : ⌊x⌋₊ ≤ 1 := Nat.floor_le_of_le (by simpa using hle)
      omega
    · have hpos : 0 < k := Nat.cast_pos.mp h0
      rw [Nat.ceil_natCast, Nat.floor_natCast]
      omega

/-- **The intervals are reflected exactly when the two ranks agree**, or the ends at them
tie. -/
theorem reflected_iff {looPreds : Matrix (Fin n) (Fin t) K} {looResid : Fin n → K}
    (hn : 0 < n) (h0 : 0 < alpha) (hhalf : alpha ≤ 1 / 2) :
    Reflected looPreds looResid alpha ↔
      ((n : K) + 1) * alpha ≤ 1 ∨ (∃ k : ℕ, ((n : K) + 1) * alpha = k) ∨
        Tied looPreds looResid ⌊((n : K) + 1) * alpha⌋₊ := by
  have hn1 : (1 : K) ≤ n := by exact_mod_cast hn
  have hx0 : 0 < ((n : K) + 1) * alpha := by positivity
  have hxn : ((n : K) + 1) * alpha ≤ n := by nlinarith
  rw [← or_assoc, ← ceil_eq_max_floor_iff hx0]
  have hcn : ⌈((n : K) + 1) * alpha⌉₊ ≤ n := Nat.ceil_le.mpr hxn
  have hc0 : 0 < ⌈((n : K) + 1) * alpha⌉₊ := Nat.ceil_pos.mpr hx0
  have hfc : ⌊((n : K) + 1) * alpha⌋₊ ≤ ⌈((n : K) + 1) * alpha⌉₊ := Nat.floor_le_ceil _
  have hcf : ⌈((n : K) + 1) * alpha⌉₊ ≤ ⌊((n : K) + 1) * alpha⌋₊ + 1 := Nat.ceil_le_floor_add_one _
  simp only [Reflected, Fin.zero_eta, Fin.mk_one, cpJkplusIntervals_lower hx0 hxn,
    cpJkplusIntervals_upper hx0.le hxn]
  set c := ⌈((n : K) + 1) * alpha⌉₊
  set f := ⌊((n : K) + 1) * alpha⌋₊
  have hneg : ∀ j, nth c (lowerEnds (-looPreds) looResid j) =
        -nth (n + 1 - c) (upperEnds looPreds looResid j) ∧
      nth (n + 1 - max f 1) (upperEnds (-looPreds) looResid j) =
        -nth (max f 1) (lowerEnds looPreds looResid j) := by
    intro j
    refine ⟨nth_lowerEnds_neg hc0 hcn, ?_⟩
    rw [nth_upperEnds_neg (by omega) (by omega), Nat.sub_sub_self (by omega)]
  simp only [hneg, neg_inj]
  rcases eq_or_ne c (max f 1) with hc | hc
  · simp only [← hc, implies_true, and_self, true_or]
  · have hc1 : c = f + 1 := by omega
    have hmax : max f 1 = f := by omega
    have hupper : n + 1 - f = n - f + 1 := by omega
    have hlower : n + 1 - (f + 1) = n - f := by omega
    rw [hmax, hc1, hupper, hlower]
    constructor
    · exact fun h => Or.inr fun j => ⟨(h j).2, (h j).1⟩
    · rintro (h | h) j
      · omega
      · exact ⟨(h j).2, (h j).1⟩

/-- Two models, one of which predicts more, and `α = 1/2`. -/
def twoPreds : Matrix (Fin 2) (Fin 1) ℚ := Matrix.of fun i _ => i.val

theorem reflected_twoPreds_third : Reflected twoPreds (fun _ => 0) (1 / 3) :=
  (reflected_iff (by decide) (by norm_num) (by norm_num)).mpr (Or.inl (by norm_num))

/-- With `α = 1/2` the interval is `[1, 1]` for these predictions, and `[0, 0]` for the
negated ones. -/
theorem not_reflected_twoPreds : ¬ Reflected twoPreds (fun _ => 0) (1 / 2) := by
  intro h
  have hlo := (h ⟨0, Nat.one_pos⟩).1
  revert hlo
  decide +kernel

end Lush.Conformal
