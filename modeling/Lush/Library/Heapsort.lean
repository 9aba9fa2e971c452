import Mathlib

/-!
# Heapsort

An array is a function from positions, and its first `n` elements are sorted by their keys.
An element sinks from a position by `sift`, which moves the larger child up until the place
of the element is found.  The elements are put in a heap from the last parent to the root
(`build`), and then the largest one is exchanged with the last one of a heap that gets
smaller (`extract`).

Everything only exchanges elements (`Permuted`); `sift_heap` is the step, and `heapsort_sorted`
the result.
-/

namespace Lush.Heapsort

variable {α κ : Type} [LinearOrder κ]

/-- The larger child of `j` in a heap of `m` elements, which has the child `2 * j + 1`. -/
def child (key : α → κ) (m : ℕ) (a : ℕ → α) (j : ℕ) : ℕ :=
  if 2 * j + 2 < m ∧ key (a (2 * j + 1)) < key (a (2 * j + 2)) then 2 * j + 2 else 2 * j + 1

theorem lt_child (key : α → κ) (m : ℕ) (a : ℕ → α) (j : ℕ) : j < child key m a j := by
  unfold child
  split_ifs <;> omega

theorem child_lt {key : α → κ} {m : ℕ} {a : ℕ → α} {j : ℕ} (h : 2 * j + 1 < m) :
    child key m a j < m := by
  unfold child
  split_ifs with hc
  · exact hc.1
  · exact h

/-- The element `x` sinks from the position `j`, which is free. -/
def sift (key : α → κ) (m : ℕ) (x : α) (j : ℕ) (a : ℕ → α) : ℕ → α :=
  if _h : 2 * j + 1 < m then
    let c := child key m a j
    if key (a c) ≤ key x then Function.update a j x
    else sift key m x c (Function.update a j (a c))
  else Function.update a j x
termination_by m - j
decreasing_by
  have hlt := lt_child key m a j
  omega

/-- The parents before `i` sink, the last one first. -/
def build (key : α → κ) (m : ℕ) : ℕ → (ℕ → α) → ℕ → α
  | 0, a => a
  | i + 1, a => build key m i (sift key m (a i) i a)

/-- The root is exchanged with the last one of `i + 1` elements, which sinks among the
others; and so on. -/
def extract (key : α → κ) : ℕ → (ℕ → α) → ℕ → α
  | 0, a => a
  | i + 1, a => extract key i (sift key (i + 1) (a (i + 1)) 0 (Function.update a (i + 1) (a 0)))

/-- Heapsort of the first `n` elements. -/
def heapsort (key : α → κ) (n : ℕ) (a : ℕ → α) : ℕ → α :=
  extract key (n - 1) (build key n (n / 2) a)

/-! ## Exchanges -/

/-- The first `n` elements of two arrays are the same, in some order, and the others agree. -/
def Permuted (n : ℕ) (a b : ℕ → α) : Prop :=
  ∃ σ : Equiv.Perm ℕ, (∀ i, n ≤ i → σ i = i) ∧ b = a ∘ σ

variable {n m : ℕ} {a b c : ℕ → α} {key : α → κ} {x : α} {i j lo : ℕ}

theorem Permuted.refl (n : ℕ) (a : ℕ → α) : Permuted n a a := ⟨1, fun _ _ => rfl, rfl⟩

theorem Permuted.trans (h : Permuted n a b) (h' : Permuted n b c) : Permuted n a c := by
  obtain ⟨σ, hσ, rfl⟩ := h
  obtain ⟨τ, hτ, rfl⟩ := h'
  refine ⟨τ.trans σ, fun i hi => ?_, rfl⟩
  show σ (τ i) = i
  rw [hτ i hi, hσ i hi]

theorem Permuted.mono (h : Permuted m a b) (hm : m ≤ n) : Permuted n a b := by
  obtain ⟨σ, hσ, rfl⟩ := h
  exact ⟨σ, fun i hi => hσ i (hm.trans hi), rfl⟩

theorem Permuted.frame (h : Permuted n a b) (hi : n ≤ i) : b i = a i := by
  obtain ⟨σ, hσ, rfl⟩ := h
  show a (σ i) = a i
  rw [hσ i hi]

/-- The elements stay among the first `n`. -/
theorem Permuted.exists_lt (h : Permuted n a b) (hi : i < n) : ∃ k < n, b i = a k := by
  obtain ⟨σ, hσ, rfl⟩ := h
  refine ⟨σ i, ?_, rfl⟩
  by_contra hge
  have hfix : σ (σ i) = σ i := hσ _ (Nat.le_of_not_lt hge)
  have heq : σ i = i := σ.injective hfix
  omega

theorem Permuted.perm (h : Permuted n a b) :
    ((List.range n).map b).Perm ((List.range n).map a) := by
  obtain ⟨σ, hσ, rfl⟩ := h
  have hlt : ∀ i < n, σ i < n := by
    intro i hi
    by_contra hge
    have hfix : σ (σ i) = σ i := hσ _ (Nat.le_of_not_lt hge)
    have heq : σ i = i := σ.injective hfix
    omega
  have hsub : (List.range n).map σ ⊆ List.range n := by
    intro k hk
    obtain ⟨i, hi, rfl⟩ := List.mem_map.mp hk
    exact List.mem_range.mpr (hlt i (List.mem_range.mp hi))
  have hnodup : ((List.range n).map σ).Nodup := List.nodup_range.map σ.injective
  have hperm : ((List.range n).map σ).Perm (List.range n) :=
    (List.subperm_of_subset hnodup hsub).perm_of_length_le (by simp)
  have hmap := hperm.map a
  rwa [List.map_map] at hmap

/-- A child moves to the free position, and leaves its own one free. -/
theorem permuted_swap (hj : j < n) (hi : i < n) (hij : i ≠ j) :
    Permuted n (Function.update a j x) (Function.update (Function.update a j (a i)) i x) := by
  refine ⟨Equiv.swap i j, fun k hk => Equiv.swap_apply_of_ne_of_ne (by omega) (by omega), ?_⟩
  funext k
  by_cases hki : k = i
  · subst hki
    simp
  · by_cases hkj : k = j
    · subst hkj
      simp [hki, hij]
    · simp [Equiv.swap_apply_of_ne_of_ne hki hkj, hki, hkj]

theorem sift_permuted (hj : j < m) : Permuted m (Function.update a j x) (sift key m x j a) := by
  induction j, a using sift.induct key m x with
  | case1 j a h c hle =>
      rw [sift, dif_pos h]
      simp only [c] at hle
      simp only [if_pos hle]
      exact .refl _ _
  | case2 j a h c hle ih =>
      rw [sift, dif_pos h]
      simp only [c] at hle ih
      simp only [if_neg hle]
      exact (permuted_swap hj (child_lt h) (lt_child key m a j).ne').trans (ih (child_lt h))
  | case3 j a h =>
      rw [sift, dif_neg h]
      exact .refl _ _

/-! ## Heaps -/

/-- `c` is a child of `i`. -/
def IsChild (c i : ℕ) : Prop := c = 2 * i + 1 ∨ c = 2 * i + 2

/-- From the position `lo` on, no child is larger than its parent. -/
def Heap (key : α → κ) (lo m : ℕ) (a : ℕ → α) : Prop :=
  ∀ i, lo ≤ i → ∀ c, IsChild c i → c < m → key (a c) ≤ key (a i)

/-- A heap with a free position `j` for `x`. -/
structure Hole (key : α → κ) (lo m : ℕ) (x : α) (j : ℕ) (a : ℕ → α) : Prop where
  off : ∀ i, lo ≤ i → i ≠ j → ∀ c, IsChild c i → c < m → c ≠ j → key (a c) ≤ key (a i)
  above : ∀ i, lo ≤ i → IsChild j i → key x ≤ key (a i)
  grand : ∀ i, lo ≤ i → IsChild j i → ∀ c, IsChild c j → c < m → key (a c) ≤ key (a i)

/-- No child is larger than the one that is chosen. -/
theorem le_child (h : IsChild i j) (hi : i < m) : key (a i) ≤ key (a (child key m a j)) := by
  unfold child
  split_ifs with hc
  · rcases h with rfl | rfl
    · exact hc.2.le
    · exact le_rfl
  · rcases h with rfl | rfl
    · exact le_rfl
    · exact not_lt.mp fun hlt => hc ⟨hi, hlt⟩

theorem isChild_child (key : α → κ) (m : ℕ) (a : ℕ → α) (j : ℕ) : IsChild (child key m a j) j := by
  unfold child
  split_ifs
  · exact Or.inr rfl
  · exact Or.inl rfl

/-- The place is found when no child of it is larger. -/
theorem Hole.fill (h : Hole key lo m x j a)
    (hx : ∀ c, IsChild c j → c < m → key (a c) ≤ key x) :
    Heap key lo m (Function.update a j x) := by
  intro i hi c hc hcm
  have hci : c ≠ i := by
    rcases hc with rfl | rfl <;> omega
  by_cases hij : i = j
  · subst hij
    simpa [hci] using hx c hc hcm
  · by_cases hcj : c = j
    · subst hcj
      simpa [hij] using h.above i hi hc
    · simpa [hij, hcj] using h.off i hi hij c hc hcm hcj

/-- **A step down.** -/
theorem Hole.move (h : Hole key lo m x j a) (hlo : lo ≤ j) (hm : 2 * j + 1 < m)
    (hx : key x < key (a (child key m a j))) :
    Hole key lo m x (child key m a j) (Function.update a j (a (child key m a j))) := by
  set c := child key m a j with hcdef
  have hcj : IsChild c j := isChild_child key m a j
  have hjc : j < c := lt_child key m a j
  -- the parent of the new free position is the old one
  have hparent : ∀ i, IsChild c i → i = j := by
    intro i hi
    rcases hi with hi | hi <;> rcases hcj with hcj | hcj <;> omega
  refine ⟨fun i hi hic d hd hdm hdc => ?_, fun i _ hi => ?_, fun i _ hi d hd hdm => ?_⟩
  · by_cases hij : i = j
    · subst hij
      have hdi : d ≠ i := by
        rcases hd with rfl | rfl <;> omega
      simpa [hdi] using le_child hd hdm
    · by_cases hdj : d = j
      · subst hdj
        simpa [hij] using h.grand i hi hd c hcj (child_lt hm)
      · simpa [hij, hdj] using h.off i hi hij d hd hdm hdj
  · obtain rfl := hparent i hi
    simpa using hx.le
  · obtain rfl := hparent i hi
    have hdi : d ≠ i := by
      rcases hd with rfl | rfl <;> omega
    have hdc : d ≠ c := by
      rcases hd with rfl | rfl <;> omega
    simpa [hdi] using h.off c (by omega) (by omega) d hd hdm hdi

theorem Hole.sift (h : Hole key lo m x j a) (hlo : lo ≤ j) (hj : j < m) :
    Heap key lo m (sift key m x j a) := by
  induction j, a using sift.induct key m x with
  | case1 j a hm c hle =>
      rw [Heapsort.sift, dif_pos hm]
      simp only [c] at hle
      simp only [if_pos hle]
      exact h.fill fun d hd hdm => (le_child hd hdm).trans hle
  | case2 j a hm c hle ih =>
      rw [Heapsort.sift, dif_pos hm]
      simp only [c] at hle ih
      simp only [if_neg hle]
      exact ih (h.move hlo hm (not_le.mp hle)) (hlo.trans (lt_child key m a j).le) (child_lt hm)
  | case3 j a hm =>
      rw [Heapsort.sift, dif_neg hm]
      refine h.fill fun c hc hcm => ?_
      rcases hc with rfl | rfl <;> omega

/-- **Sinking makes a heap**, if what is below is one. -/
theorem sift_heap (h : Heap key (j + 1) m a) (hj : j < m) : Heap key j m (sift key m x j a) := by
  refine Hole.sift ⟨fun i hi hij c hc hcm _ => h i (by omega) c hc hcm, fun i hi hc => ?_,
    fun i hi hc => ?_⟩ le_rfl hj
  · rcases hc with rfl | rfl <;> omega
  · rcases hc with rfl | rfl <;> omega

theorem build_heap (h : Heap key i m a) (hi : i ≤ m) :
    Heap key 0 m (build key m i a) ∧ Permuted m a (build key m i a) := by
  induction i generalizing a with
  | zero => exact ⟨h, .refl _ _⟩
  | succ i ih =>
      obtain ⟨hheap, hperm⟩ := ih (sift_heap (x := a i) h hi) (Nat.le_of_succ_le hi)
      have hsift : Permuted m (Function.update a i (a i)) (sift key m (a i) i a) :=
        sift_permuted hi
      rw [Function.update_eq_self] at hsift
      exact ⟨hheap, hsift.trans hperm⟩

/-- **The root is the largest.** -/
theorem Heap.le_root (h : Heap key 0 m a) : ∀ i < m, key (a i) ≤ key (a 0) := by
  intro i
  induction i using Nat.strong_induction_on with
  | _ i ih =>
      intro hi
      by_cases h0 : i = 0
      · rw [h0]
      · have hchild : IsChild i ((i - 1) / 2) := by
          unfold IsChild
          omega
        exact (h _ (Nat.zero_le _) i hchild hi).trans (ih _ (by omega) (by omega))

/-! ## Sorting -/

/-- A heap of `m` elements, and after it the others in order, none less than one before it. -/
structure Extracted (key : α → κ) (m n : ℕ) (a : ℕ → α) : Prop where
  heap : Heap key 0 m a
  tail : ∀ i j, m ≤ j → j < n → i ≤ j → key (a i) ≤ key (a j)

/-- **One round.** -/
theorem Extracted.step (h : Extracted key (i + 2) n a) (hi : i + 1 < n) :
    Extracted key (i + 1) n
        (sift key (i + 1) (a (i + 1)) 0 (Function.update a (i + 1) (a 0))) ∧
      Permuted n a (sift key (i + 1) (a (i + 1)) 0 (Function.update a (i + 1) (a 0))) := by
  set b := Function.update a (i + 1) (a 0) with hb
  have hsift : Permuted (i + 1) (Function.update b 0 (a (i + 1)))
      (sift key (i + 1) (a (i + 1)) 0 b) := sift_permuted (Nat.succ_pos i)
  have hswap : Permuted n a (Function.update b 0 (a (i + 1))) := by
    have hswap := permuted_swap (a := a) (n := n) (j := i + 1) (i := 0) (x := a (i + 1)) hi
      (by omega) (by omega)
    rwa [Function.update_eq_self] at hswap
  have hperm : Permuted n a (sift key (i + 1) (a (i + 1)) 0 b) := hswap.trans (hsift.mono hi.le)
  have hheap : Heap key 1 (i + 1) b := by
    intro p hp c hc hcm
    have hcp : p < c := by
      rcases hc with rfl | rfl <;> omega
    have hcne : c ≠ i + 1 := by omega
    have hpne : p ≠ i + 1 := by omega
    simpa [hb, hcne, hpne] using h.heap p (Nat.zero_le _) c hc (by omega)
  refine ⟨⟨sift_heap hheap (Nat.succ_pos i), fun p q hq hqn hpq => ?_⟩, hperm⟩
  rw [hsift.frame hq, Function.update_of_ne (by omega)]
  -- the element at `p` comes from the first `i + 2`, or has not moved
  rcases Nat.lt_or_ge p (i + 2) with hp | hp
  · have hroot : ∀ k < i + 2, key (a k) ≤ key (b q) := by
      intro k hk
      by_cases hqi : q = i + 1
      · subst hqi
        simpa [hb] using h.heap.le_root k hk
      · simpa [hb, hqi] using h.tail k q (by omega) hqn (by omega)
    have hall : Permuted (i + 2) a (sift key (i + 1) (a (i + 1)) 0 b) := by
      have hswap' := permuted_swap (a := a) (n := i + 2) (j := i + 1) (i := 0)
        (x := a (i + 1)) (by omega) (by omega) (by omega)
      rw [Function.update_eq_self] at hswap'
      exact hswap'.trans (hsift.mono (by omega))
    obtain ⟨k, hk, heq⟩ := hall.exists_lt hp
    rw [heq]
    exact hroot k hk
  · have hqne : q ≠ i + 1 := by omega
    have hpne : p ≠ i + 1 := by omega
    rw [hsift.frame (by omega), Function.update_of_ne (by omega)]
    simpa [hb, hqne, hpne] using h.tail p q (by omega) hqn hpq

theorem extract_sorted (h : Extracted key (i + 1) n a) (hi : i < n) :
    (∀ p q, p ≤ q → q < n → key (extract key i a p) ≤ key (extract key i a q)) ∧
      Permuted n a (extract key i a) := by
  induction i generalizing a with
  | zero =>
      refine ⟨fun p q hpq hq => ?_, .refl _ _⟩
      by_cases h0 : q = 0
      · obtain rfl : p = q := by omega
        exact le_rfl
      · exact h.tail p q (by omega) hq hpq
  | succ i ih =>
      obtain ⟨hstep, hperm⟩ := h.step hi
      obtain ⟨hsorted, hperm'⟩ := ih hstep (by omega)
      exact ⟨hsorted, hperm.trans hperm'⟩

/-- **Heapsort sorts**, by exchanges among the first `n` elements. -/
theorem heapsort_sorted (key : α → κ) (n : ℕ) (a : ℕ → α) :
    (∀ p q, p ≤ q → q < n → key (heapsort key n a p) ≤ key (heapsort key n a q)) ∧
      Permuted n a (heapsort key n a) := by
  by_cases hn : n = 0
  · subst hn
    exact ⟨fun p q _ hq => absurd hq (Nat.not_lt_zero q), .refl _ _⟩
  have hstart : Heap key (n / 2) n a := by
    intro i hi c hc hcm
    rcases hc with rfl | rfl <;> omega
  obtain ⟨hheap, hperm⟩ := build_heap hstart (Nat.div_le_self n 2)
  have hextracted : Extracted key (n - 1 + 1) n (build key n (n / 2) a) := by
    rw [Nat.sub_add_cancel (Nat.pos_of_ne_zero hn)]
    exact ⟨hheap, fun p q hq hqn => absurd hqn (not_lt.mpr hq)⟩
  obtain ⟨hsorted, hperm'⟩ := extract_sorted hextracted (by omega)
  exact ⟨hsorted, hperm.trans hperm'⟩

end Lush.Heapsort
