import Mathlib

/-!
# The maximal overlap wavelet transform

`modwt` filters a signal level by level with two filters, around the end of the signal, and
`imodwt` puts the levels together again.  The wavelet filter is the scaling filter backwards
with alternating signs.  So the products of the two filters at an odd distance cancel, and those
at an even distance are those of the scaling filter, which is orthonormal to its even shifts
(`sum_filters`).

The arithmetic is exact, over a ring with a number `s` for `1 / sqrt 2`.
-/

namespace Lush.Wavelets

variable {K : Type} [CommRing K]

/-! ## The code -/

/-- A vector; its length is given apart. -/
abbrev Signal (K : Type) := ℕ → K

/-- `while (k < 0) k += n`. -/
def wrapUp (n : ℕ) (k : ℤ) : ℤ :=
  if _h : k < 0 ∧ 0 < n then wrapUp n (k + n) else k
termination_by (-k).toNat

/-- `while (k >= n) k -= n`. -/
def wrapDown (n : ℕ) (k : ℤ) : ℤ :=
  if _h : (n : ℤ) ≤ k ∧ 0 < n then wrapDown n (k - n) else k
termination_by k.toNat

/-- `wavelet-qmf`. -/
def waveletQmf (flen : ℕ) (g : Signal K) : Signal K := fun k =>
  (if k % 2 = 0 then 1 else -1) * g (flen - 1 - k)

/-- The sum over a filter, with the place in the signal moving before each further term. -/
def convolve (move : ℤ → ℤ) (flen : ℕ) (term : ℕ → ℤ → K) (t : ℕ) : K :=
  ((List.range' 1 (flen - 1)).foldl
    (fun (acc : ℤ × K) l => (move acc.1, acc.2 + term l (move acc.1))) (t, term 0 t)).2

/-- `_modwt-forward-level`: the wavelet and the scaling coefficients. -/
def modwtForwardLevel (n flen : ℕ) (vin g h : Signal K) (j : ℕ) : Signal K × Signal K :=
  let move := fun k : ℤ => wrapUp n (k - 2 ^ (j - 1))
  (convolve move flen fun l k => h l * vin k.toNat, convolve move flen fun l k => g l * vin k.toNat)

/-- `_modwt-inverse-level`. -/
def modwtInverseLevel (n flen : ℕ) (win vin g h : Signal K) (j : ℕ) : Signal K :=
  convolve (fun k => wrapDown n (k + 2 ^ (j - 1))) flen fun l k =>
    h l * win k.toNat + g l * vin k.toNat

/-- A scaling filter, and the number by which the filters are scaled. -/
structure Filter (K : Type) where
  flen : ℕ
  g : Signal K
  s : K

/-- The filters of `modwt` and `imodwt`. -/
def Filter.gs (f : Filter K) : Signal K := fun i => f.s * f.g i

def Filter.hs (f : Filter K) : Signal K := fun i => f.s * waveletQmf f.flen f.g i

/-- `modwt`. -/
def modwt (f : Filter K) (n : ℕ) (data : Signal K) (nlevels : ℕ) : List (Signal K) :=
  let r := (List.range' 1 nlevels).foldl
    (fun (r : List (Signal K) × Signal K) j =>
      let level := modwtForwardLevel n f.flen r.2 f.gs f.hs j
      (r.1 ++ [level.1], level.2))
    ([], data)
  r.1 ++ [r.2]

/-- `imodwt`. -/
def imodwt (f : Filter K) (n : ℕ) (coeffs : List (Signal K)) : Signal K :=
  let nlevels := coeffs.length - 1
  (List.range' 1 nlevels).reverse.foldl
    (fun v j => modwtInverseLevel n f.flen (coeffs.getD (j - 1) 0) v f.gs f.hs j)
    (coeffs.getD nlevels 0)

/-- The coefficients of which `mra` keeps one only. -/
def keepOne (nlevels : ℕ) (wcoeffs : List (Signal K)) (j : ℕ) : List (Signal K) :=
  (List.range (nlevels + 1)).map fun k => if k = j then wcoeffs.getD k 0 else 0

/-- `mra`: the details and the smooth. -/
def mra (f : Filter K) (n : ℕ) (data : Signal K) (nlevels : ℕ) : List (Signal K) :=
  let wcoeffs := modwt f n data nlevels
  (List.range (nlevels + 1)).map fun j => imodwt f n (keepOne nlevels wcoeffs j)

/-! ## Circular places -/

variable {n flen : ℕ}

theorem wrapUp_eq (hn : 0 < n) {k : ℤ} (hk : k < n) : wrapUp n k = k % n := by
  fun_induction wrapUp n k with
  | case1 k h ih => rw [ih (by omega), Int.add_emod_right]
  | case2 k h => exact (Int.emod_eq_of_lt (by omega) hk).symm

theorem wrapDown_eq (hn : 0 < n) {k : ℤ} (hk : 0 ≤ k) : wrapDown n k = k % n := by
  fun_induction wrapDown n k with
  | case1 k h ih => rw [ih (by omega), Int.sub_emod_right]
  | case2 k h => exact (Int.emod_eq_of_lt hk (by omega)).symm

/-- The sum over a filter, when the places are known. -/
theorem convolve_eq (move : ℤ → ℤ) {t : ℕ} (place : ℕ → ℤ) (term : ℕ → ℤ → K) (hflen : 0 < flen)
    (hzero : place 0 = t) (hmove : ∀ l, move (place l) = place (l + 1)) :
    convolve move flen term t = ∑ l ∈ Finset.range flen, term l (place l) := by
  obtain ⟨m, rfl⟩ := Nat.exists_eq_add_one.mpr hflen
  have hfold : (List.range' 1 m).foldl
      (fun (acc : ℤ × K) l => (move acc.1, acc.2 + term l (move acc.1))) (↑t, term 0 t) =
      (place m, ∑ l ∈ Finset.range (m + 1), term l (place l)) := by
    clear hflen
    induction m with
    | zero => rw [List.range'_zero, List.foldl_nil, Finset.sum_range_one, hzero]
    | succ m ih =>
        rw [List.range'_1_concat, List.foldl_append, ih, List.foldl_cons, List.foldl_nil,
          Finset.sum_range_succ _ (m + 1), hmove, Nat.add_comm 1 m]
  rw [convolve, Nat.add_sub_cancel, hfold]

/-- A signal around its end. -/
def circ (n : ℕ) (v : Signal K) (i : ℤ) : K := v (i % n).toNat

omit [CommRing K] in
theorem circ_natCast {t : ℕ} (ht : t < n) (v : Signal K) : circ n v t = v t := by
  rw [circ, ← Int.natCast_mod, Int.toNat_natCast, Nat.mod_eq_of_lt ht]

omit [CommRing K] in
theorem circ_add_self (v : Signal K) (i : ℤ) : circ n v (i + n) = circ n v i := by
  rw [circ, circ, Int.add_emod_right]

variable {w v x g h : Signal K} {j : ℕ}

/-- The coefficients of a level. -/
theorem forwardLevel_eq (hn : 0 < n) (hflen : 0 < flen) {t : ℕ} (ht : t < n) :
    (modwtForwardLevel n flen x g h j).1 t =
        ∑ l ∈ Finset.range flen, h l * circ n x (t - l * 2 ^ (j - 1)) ∧
      (modwtForwardLevel n flen x g h j).2 t =
        ∑ l ∈ Finset.range flen, g l * circ n x (t - l * 2 ^ (j - 1)) := by
  have hzero : ((t : ℤ) - (0 : ℕ) * 2 ^ (j - 1)) % n = t := by
    rw [Nat.cast_zero, zero_mul, sub_zero]
    exact Int.emod_eq_of_lt (by omega) (by omega)
  have hmove : ∀ l : ℕ, wrapUp n (((t : ℤ) - l * 2 ^ (j - 1)) % n - 2 ^ (j - 1)) =
      ((t : ℤ) - (l + 1 : ℕ) * 2 ^ (j - 1)) % n := by
    intro l
    have hlt : ((t : ℤ) - l * 2 ^ (j - 1)) % n < n := Int.emod_lt_of_pos _ (by omega)
    have hstep : (0 : ℤ) ≤ 2 ^ (j - 1) := by positivity
    rw [wrapUp_eq hn (by omega), Int.emod_sub_emod]
    push_cast
    ring_nf
  have hsum := fun term : ℕ → ℤ → K =>
    convolve_eq (fun k => wrapUp n (k - 2 ^ (j - 1)))
      (fun l : ℕ => ((t : ℤ) - l * 2 ^ (j - 1)) % n) term hflen hzero hmove
  exact ⟨hsum fun l k => h l * x k.toNat, hsum fun l k => g l * x k.toNat⟩

theorem inverseLevel_eq (hn : 0 < n) (hflen : 0 < flen) {t : ℕ} (ht : t < n) :
    modwtInverseLevel n flen w v g h j t = ∑ l ∈ Finset.range flen,
      (h l * circ n w (t + l * 2 ^ (j - 1)) + g l * circ n v (t + l * 2 ^ (j - 1))) := by
  have hzero : ((t : ℤ) + (0 : ℕ) * 2 ^ (j - 1)) % n = t := by
    rw [Nat.cast_zero, zero_mul, add_zero]
    exact Int.emod_eq_of_lt (by omega) (by omega)
  have hmove : ∀ l : ℕ, wrapDown n (((t : ℤ) + l * 2 ^ (j - 1)) % n + 2 ^ (j - 1)) =
      ((t : ℤ) + (l + 1 : ℕ) * 2 ^ (j - 1)) % n := by
    intro l
    have hnonneg : 0 ≤ ((t : ℤ) + l * 2 ^ (j - 1)) % n := Int.emod_nonneg _ (by omega)
    have hstep : (0 : ℤ) ≤ 2 ^ (j - 1) := by positivity
    rw [wrapDown_eq hn (by omega), Int.emod_add_emod]
    push_cast
    ring_nf
  exact convolve_eq _ (fun l : ℕ => ((t : ℤ) + l * 2 ^ (j - 1)) % n)
    (fun l k => h l * w k.toNat + g l * v k.toNat) hflen hzero hmove

/-- The coefficients of a level, around the end. -/
theorem circ_forwardLevel (hn : 0 < n) (hflen : 0 < flen) (i : ℤ) :
    circ n (modwtForwardLevel n flen x g h j).1 i =
        ∑ l ∈ Finset.range flen, h l * circ n x (i - l * 2 ^ (j - 1)) ∧
      circ n (modwtForwardLevel n flen x g h j).2 i =
        ∑ l ∈ Finset.range flen, g l * circ n x (i - l * 2 ^ (j - 1)) := by
  have hnonneg : 0 ≤ i % n := Int.emod_nonneg _ (by omega)
  have hlt : (i % n).toNat < n := by
    have := Int.emod_lt_of_pos i (b := n) (by omega)
    omega
  have hplace : ∀ l : ℕ, circ n x (((i % n).toNat : ℤ) - l * 2 ^ (j - 1)) =
      circ n x (i - l * 2 ^ (j - 1)) := by
    intro l
    rw [circ, circ, Int.toNat_of_nonneg hnonneg, Int.emod_sub_emod]
  obtain ⟨hw, hv⟩ := @forwardLevel_eq _ _ _ _ x g h j hn hflen _ hlt
  simp only [hplace] at hw hv
  exact ⟨hw, hv⟩

/-! ## The two filters -/

open Finset (range)

/-- The scaling filter is orthonormal to its even shifts. -/
structure Filter.Orthonormal (f : Filter K) : Prop where
  pos : 0 < f.flen
  scale : 2 * (f.s * f.s) = 1
  shifts : ∀ d : ℕ,
    ∑ l ∈ range (f.flen - 2 * d), f.g (l + 2 * d) * f.g l = if d = 0 then 1 else 0

variable {f : Filter K}

/-- The pairs of places of a filter at a distance. -/
def pairsAt (flen : ℕ) (c : ℤ) : Finset (ℕ × ℕ) :=
  (range flen ×ˢ range flen).filter fun p => (p.1 : ℤ) - p.2 = c

theorem mem_pairsAt {c : ℤ} {p : ℕ × ℕ} :
    p ∈ pairsAt flen c ↔ (p.1 < flen ∧ p.2 < flen) ∧ (p.1 : ℤ) - p.2 = c := by
  rw [pairsAt, Finset.mem_filter, Finset.mem_product, Finset.mem_range, Finset.mem_range]

theorem sum_pairsAt_neg (c : ℤ) :
    ∑ p ∈ pairsAt flen (-c), g p.1 * g p.2 = ∑ p ∈ pairsAt flen c, g p.1 * g p.2 := by
  refine Finset.sum_nbij' Prod.swap Prod.swap ?_ ?_ (fun _ _ => rfl) (fun _ _ => rfl)
    fun p _ => mul_comm _ _
  all_goals
    intro p hp
    rw [mem_pairsAt] at hp ⊢
    rw [Prod.fst_swap, Prod.snd_swap]
    omega

theorem sum_pairsAt_natCast (d : ℕ) :
    ∑ p ∈ pairsAt flen d, g p.1 * g p.2 = ∑ l ∈ range (flen - d), g (l + d) * g l := by
  refine Finset.sum_nbij' (fun p => p.2) (fun l => (l + d, l)) ?_ ?_ ?_ (fun _ _ => rfl) ?_
  · intro p hp
    rw [mem_pairsAt] at hp
    rw [Finset.mem_range]
    omega
  · intro l hl
    rw [Finset.mem_range] at hl
    rw [mem_pairsAt]
    push_cast
    omega
  all_goals
    intro p hp
    rw [mem_pairsAt] at hp
    have hfst : p.2 + d = p.1 := by omega
    simp only [hfst]

/-- The even shifts of the scaling filter, both ways. -/
theorem Filter.Orthonormal.sum_pairsAt (hf : f.Orthonormal) {c : ℤ} (hc : c % 2 = 0) :
    ∑ p ∈ pairsAt f.flen c, f.g p.1 * f.g p.2 = if c = 0 then 1 else 0 := by
  have hnat : ∀ d : ℕ, ∑ p ∈ pairsAt f.flen (2 * d : ℕ), f.g p.1 * f.g p.2 =
      if d = 0 then 1 else 0 := fun d => (sum_pairsAt_natCast _).trans (hf.shifts d)
  obtain hnonneg | hneg := le_total 0 c
  · obtain ⟨d, rfl⟩ : ∃ d : ℕ, c = (2 * d : ℕ) := ⟨(c / 2).toNat, by omega⟩
    rw [hnat]
    exact if_congr (by omega) rfl rfl
  · obtain ⟨d, rfl⟩ : ∃ d : ℕ, c = -(2 * d : ℕ) := ⟨(-c / 2).toNat, by omega⟩
    rw [sum_pairsAt_neg, hnat]
    exact if_congr (by omega) rfl rfl

/-- The wavelet filter backwards is the scaling filter, up to the signs. -/
theorem sum_waveletQmf (F : ℤ → K) :
    ∑ p ∈ range flen ×ˢ range flen,
        waveletQmf flen g p.1 * waveletQmf flen g p.2 * F (p.1 - p.2) =
      ∑ p ∈ range flen ×ˢ range flen,
        (if ((p.1 : ℤ) - p.2) % 2 = 0 then 1 else -1) * (g p.1 * g p.2 * F (p.1 - p.2)) := by
  refine Finset.sum_nbij' (fun p => (flen - 1 - p.2, flen - 1 - p.1))
    (fun p => (flen - 1 - p.2, flen - 1 - p.1)) ?_ ?_ ?_ ?_ ?_
  all_goals
    intro p hp
    rw [Finset.mem_product, Finset.mem_range, Finset.mem_range] at hp
  · rw [Finset.mem_product, Finset.mem_range, Finset.mem_range]
    omega
  · rw [Finset.mem_product, Finset.mem_range, Finset.mem_range]
    omega
  · exact Prod.ext (by dsimp only; omega) (by dsimp only; omega)
  · exact Prod.ext (by dsimp only; omega) (by dsimp only; omega)
  · have hdist : ((flen - 1 - p.2 : ℕ) : ℤ) - (flen - 1 - p.1 : ℕ) = p.1 - p.2 := by omega
    dsimp only
    rw [hdist, waveletQmf, waveletQmf]
    obtain h1 | h1 := Nat.mod_two_eq_zero_or_one p.1 <;>
      obtain h2 | h2 := Nat.mod_two_eq_zero_or_one p.2
    · rw [if_pos h1, if_pos h2, if_pos (by omega)]
      ring
    · rw [if_pos h1, if_neg (by omega), if_neg (by omega)]
      ring
    · rw [if_neg (by omega), if_pos h2, if_neg (by omega)]
      ring
    · rw [if_neg (by omega), if_neg (by omega), if_pos (by omega)]
      ring

/-- The products of the filters cancel, but at distance 0. -/
theorem sum_filters (hf : f.Orthonormal) (F : ℤ → K) :
    ∑ p ∈ range f.flen ×ˢ range f.flen,
      (f.hs p.1 * f.hs p.2 + f.gs p.1 * f.gs p.2) * F (p.1 - p.2) = F 0 := by
  let S := range f.flen ×ˢ range f.flen
  have heven : ∑ p ∈ S, (f.hs p.1 * f.hs p.2 + f.gs p.1 * f.gs p.2) * F (p.1 - p.2) =
      ∑ p ∈ S, if ((p.1 : ℤ) - p.2) % 2 = 0 then f.g p.1 * f.g p.2 * F (p.1 - p.2) else 0 := by
    calc ∑ p ∈ S, (f.hs p.1 * f.hs p.2 + f.gs p.1 * f.gs p.2) * F (p.1 - p.2)
      _ = f.s * f.s * (∑ p ∈ S,
            waveletQmf f.flen f.g p.1 * waveletQmf f.flen f.g p.2 * F (p.1 - p.2)) +
          f.s * f.s * ∑ p ∈ S, f.g p.1 * f.g p.2 * F (p.1 - p.2) := by
        rw [Finset.mul_sum, Finset.mul_sum, ← Finset.sum_add_distrib]
        refine Finset.sum_congr rfl fun p _ => ?_
        rw [Filter.hs, Filter.hs, Filter.gs, Filter.gs]
        ring
      _ = _ := by
        rw [sum_waveletQmf, Finset.mul_sum, Finset.mul_sum, ← Finset.sum_add_distrib]
        refine Finset.sum_congr rfl fun p _ => ?_
        split
        · linear_combination (f.g p.1 * f.g p.2 * F (p.1 - p.2)) * hf.scale
        · ring
  have hmaps : ∀ p ∈ S, (p.1 : ℤ) - p.2 ∈ Finset.Icc (-(f.flen : ℤ)) f.flen := by
    intro p hp
    rw [Finset.mem_product, Finset.mem_range, Finset.mem_range] at hp
    rw [Finset.mem_Icc]
    omega
  have hfiber : ∀ c : ℤ, (∑ p ∈ S with (p.1 : ℤ) - p.2 = c,
      if ((p.1 : ℤ) - p.2) % 2 = 0 then f.g p.1 * f.g p.2 * F (p.1 - p.2) else 0) =
      if c = 0 then F c else 0 := by
    intro c
    have hdist : ∀ p ∈ pairsAt f.flen c, (p.1 : ℤ) - p.2 = c := fun p hp => (mem_pairsAt.mp hp).2
    have hterm : (∑ p ∈ pairsAt f.flen c,
        if ((p.1 : ℤ) - p.2) % 2 = 0 then f.g p.1 * f.g p.2 * F (p.1 - p.2) else 0) =
        if c % 2 = 0 then (∑ p ∈ pairsAt f.flen c, f.g p.1 * f.g p.2) * F c else 0 := by
      split
      · rename_i hc
        rw [Finset.sum_mul]
        refine Finset.sum_congr rfl fun p hp => ?_
        rw [hdist p hp, if_pos hc]
      · rename_i hc
        refine Finset.sum_eq_zero fun p hp => ?_
        rw [hdist p hp, if_neg hc]
    refine hterm.trans ?_
    split
    · rename_i hc
      rw [hf.sum_pairsAt hc, ite_mul, one_mul, zero_mul]
    · rename_i hc
      rw [if_neg (by omega)]
  rw [heven, ← Finset.sum_fiberwise_of_maps_to hmaps, Finset.sum_congr rfl fun c _ => hfiber c,
    Finset.sum_ite_eq', if_pos (by rw [Finset.mem_Icc]; omega)]

/-! ## One level -/

omit [CommRing K] in
theorem circ_congr {v' : Signal K} (hn : 0 < n) (h : ∀ t < n, v t = v' t) (i : ℤ) :
    circ n v i = circ n v' i := by
  have hlt := Int.emod_lt_of_pos i (b := n) (by omega)
  have hnonneg := Int.emod_nonneg i (b := n) (by omega)
  exact h _ (by omega)

/-- A level is put together again. -/
theorem inverse_forwardLevel (hf : f.Orthonormal) (hn : 0 < n) {t : ℕ}
    (ht : t < n) :
    modwtInverseLevel n f.flen (modwtForwardLevel n f.flen x f.gs f.hs j).1
      (modwtForwardLevel n f.flen x f.gs f.hs j).2 f.gs f.hs j t = x t := by
  have hexpand : ∀ l : ℕ,
      f.hs l * circ n (modwtForwardLevel n f.flen x f.gs f.hs j).1 (t + l * 2 ^ (j - 1)) +
        f.gs l * circ n (modwtForwardLevel n f.flen x f.gs f.hs j).2 (t + l * 2 ^ (j - 1)) =
      ∑ m ∈ range f.flen, (f.hs l * f.hs m + f.gs l * f.gs m) *
        circ n x (t + ((l : ℤ) - m) * 2 ^ (j - 1)) := by
    intro l
    rw [(circ_forwardLevel hn hf.pos _).1, (circ_forwardLevel hn hf.pos _).2, Finset.mul_sum,
      Finset.mul_sum, ← Finset.sum_add_distrib]
    refine Finset.sum_congr rfl fun m _ => ?_
    rw [show (t : ℤ) + l * 2 ^ (j - 1) - m * 2 ^ (j - 1) = t + ((l : ℤ) - m) * 2 ^ (j - 1) by ring]
    ring
  rw [inverseLevel_eq hn hf.pos ht, Finset.sum_congr rfl fun l _ => hexpand l,
    ← Finset.sum_product', sum_filters hf fun c => circ n x (t + c * 2 ^ (j - 1)), zero_mul,
    add_zero, circ_natCast ht]

/-- A sum around a period starts anywhere. -/
theorem sum_circ_shift {u : ℤ → K} (hu : ∀ i, u (i + n) = u i) (i : ℤ) :
    ∑ t ∈ range n, u (t + i) = ∑ t ∈ range n, u t := by
  have hone : ∀ i : ℤ, ∑ t ∈ range n, u (t + (i + 1)) = ∑ t ∈ range n, u (t + i) := by
    intro i
    have hsucc := Finset.sum_range_succ' (fun t : ℕ => u (t + i)) n
    rw [Finset.sum_range_succ, Nat.cast_zero, zero_add, add_comm (n : ℤ) i, hu] at hsucc
    refine Eq.trans (Finset.sum_congr rfl fun t _ => ?_) (add_right_cancel hsucc).symm
    rw [Nat.cast_succ, add_assoc, add_comm 1 i]
  induction i with
  | zero => exact Finset.sum_congr rfl fun t _ => by rw [add_zero]
  | succ i ih => rw [hone, ih]
  | pred i ih =>
      rw [← hone, sub_add_cancel]
      exact ih

/-- The energy of a signal. -/
def energy (n : ℕ) (v : Signal K) : K := ∑ t ∈ range n, v t ^ 2

/-- A level keeps the energy. -/
theorem energy_forwardLevel (hf : f.Orthonormal) (hn : 0 < n) :
    energy n (modwtForwardLevel n f.flen x f.gs f.hs j).1 +
      energy n (modwtForwardLevel n f.flen x f.gs f.hs j).2 = energy n x := by
  -- the signal against itself at a distance
  let corr := fun c : ℤ => ∑ t ∈ range n, circ n x t * circ n x (t + c * 2 ^ (j - 1))
  have hsquare : ∀ (a : Signal K) (t : ℕ),
      (∑ l ∈ range f.flen, a l * circ n x (t - l * 2 ^ (j - 1))) ^ 2 =
      ∑ p ∈ range f.flen ×ˢ range f.flen, a p.1 * a p.2 *
        (circ n x (t - p.1 * 2 ^ (j - 1)) * circ n x (t - p.2 * 2 ^ (j - 1))) := by
    intro a t
    rw [sq, Finset.sum_mul_sum, ← Finset.sum_product']
    exact Finset.sum_congr rfl fun p _ => by ring
  have hcorr : ∀ p : ℕ × ℕ, ∑ t ∈ range n,
      circ n x (t - p.1 * 2 ^ (j - 1)) * circ n x (t - p.2 * 2 ^ (j - 1)) = corr (p.1 - p.2) := by
    intro p
    let u := fun i : ℤ => circ n x i * circ n x (i + ((p.1 : ℤ) - p.2) * 2 ^ (j - 1))
    have hu : ∀ i, u (i + n) = u i := by
      intro i
      dsimp only [u]
      rw [circ_add_self, add_right_comm, circ_add_self]
    refine Eq.trans (Finset.sum_congr rfl fun t _ => ?_)
      (sum_circ_shift hu (-(p.1 * 2 ^ (j - 1))))
    dsimp only [u]
    rw [← sub_eq_add_neg]
    congr 2
    ring
  have hlevel : ∀ t ∈ range n,
      (modwtForwardLevel n f.flen x f.gs f.hs j).1 t ^ 2 +
        (modwtForwardLevel n f.flen x f.gs f.hs j).2 t ^ 2 =
      ∑ p ∈ range f.flen ×ˢ range f.flen, (f.hs p.1 * f.hs p.2 + f.gs p.1 * f.gs p.2) *
        (circ n x (t - p.1 * 2 ^ (j - 1)) * circ n x (t - p.2 * 2 ^ (j - 1))) := by
    intro t ht
    obtain ⟨hw, hv⟩ := @forwardLevel_eq _ _ _ _ x f.gs f.hs j hn hf.pos t (Finset.mem_range.mp ht)
    rw [hw, hv, hsquare, hsquare, ← Finset.sum_add_distrib]
    exact Finset.sum_congr rfl fun p _ => by ring
  rw [energy, energy, ← Finset.sum_add_distrib, Finset.sum_congr rfl hlevel, Finset.sum_comm,
    Finset.sum_congr rfl fun p _ => (Finset.mul_sum _ _ _).symm.trans (congrArg _ (hcorr p)),
    sum_filters hf corr]
  refine Finset.sum_congr rfl fun t ht => ?_
  rw [zero_mul, add_zero, circ_natCast (Finset.mem_range.mp ht), sq]

/-! ## All levels -/

/-- What `modwt` has after some levels. -/
def modwtLevels (f : Filter K) (n : ℕ) (data : Signal K) (nlevels : ℕ) :
    List (Signal K) × Signal K :=
  (List.range' 1 nlevels).foldl
    (fun r j =>
      let level := modwtForwardLevel n f.flen r.2 f.gs f.hs j
      (r.1 ++ [level.1], level.2))
    ([], data)

theorem modwt_eq (f : Filter K) (n : ℕ) (data : Signal K) (nlevels : ℕ) :
    modwt f n data nlevels =
      (modwtLevels f n data nlevels).1 ++ [(modwtLevels f n data nlevels).2] := rfl

theorem modwtLevels_succ (f : Filter K) (n : ℕ) (data : Signal K) (nlevels : ℕ) :
    modwtLevels f n data (nlevels + 1) =
      ((modwtLevels f n data nlevels).1 ++
          [(modwtForwardLevel n f.flen (modwtLevels f n data nlevels).2 f.gs f.hs
            (nlevels + 1)).1],
        (modwtForwardLevel n f.flen (modwtLevels f n data nlevels).2 f.gs f.hs (nlevels + 1)).2) := by
  rw [modwtLevels, List.range'_1_concat, List.foldl_append, Nat.add_comm 1 nlevels]
  rfl

theorem modwtLevels_length (f : Filter K) (n : ℕ) (data : Signal K) (nlevels : ℕ) :
    (modwtLevels f n data nlevels).1.length = nlevels := by
  induction nlevels with
  | zero => rfl
  | succ m ih => rw [modwtLevels_succ, List.length_append, ih, List.length_singleton]

/-- The loop of `imodwt`. -/
def imodwtLevels (f : Filter K) (n : ℕ) (c : ℕ → Signal K) (v : Signal K) (js : List ℕ) :
    Signal K :=
  js.foldl (fun v j => modwtInverseLevel n f.flen (c (j - 1)) v f.gs f.hs j) v

theorem imodwtLevels_cons (c : ℕ → Signal K) (v : Signal K) (j : ℕ) (js : List ℕ) :
    imodwtLevels f n c v (j :: js) =
      imodwtLevels f n c (modwtInverseLevel n f.flen (c (j - 1)) v f.gs f.hs j) js := rfl

theorem imodwt_eq (f : Filter K) (n : ℕ) (coeffs : List (Signal K)) :
    imodwt f n coeffs = imodwtLevels f n (fun k => coeffs.getD k 0)
      (coeffs.getD (coeffs.length - 1) 0) (List.range' 1 (coeffs.length - 1)).reverse := rfl

/-- The levels down from any vector that agrees with the smooth. -/
theorem imodwtLevels_modwtLevels (hf : f.Orthonormal) (hn : 0 < n) (tail : List (Signal K))
    (nlevels : ℕ) (v : Signal K) (hv : ∀ t < n, v t = (modwtLevels f n x nlevels).2 t) {t : ℕ}
    (ht : t < n) :
    imodwtLevels f n (fun k => ((modwtLevels f n x nlevels).1 ++ tail).getD k 0) v
      (List.range' 1 nlevels).reverse t = x t := by
  induction nlevels generalizing v tail with
  | zero => exact hv t ht
  | succ m ih =>
      rw [List.range'_1_concat, List.reverse_append, List.reverse_singleton,
        List.singleton_append, imodwtLevels_cons, modwtLevels_succ, List.append_assoc]
      refine ih _ _ fun t ht => ?_
      have hget : ((modwtLevels f n x m).1 ++
          ([(modwtForwardLevel n f.flen (modwtLevels f n x m).2 f.gs f.hs (m + 1)).1] ++
            tail)).getD (1 + m - 1) 0 =
          (modwtForwardLevel n f.flen (modwtLevels f n x m).2 f.gs f.hs (m + 1)).1 := by
        rw [Nat.add_sub_cancel_left, List.getD_append_right _ _ _ _ (modwtLevels_length ..).le,
          modwtLevels_length, Nat.sub_self]
        rfl
      have hlevel := inverse_forwardLevel (j := m + 1) (x := (modwtLevels f n x m).2) hf hn ht
      rw [modwtLevels_succ] at hv
      rw [inverseLevel_eq hn hf.pos ht] at hlevel ⊢
      rw [hget, Nat.add_comm 1 m, ← hlevel]
      exact Finset.sum_congr rfl fun l _ => by rw [circ_congr hn hv]

/-- The energy of all the levels. -/
theorem energy_modwtLevels (hf : f.Orthonormal) (hn : 0 < n) (nlevels : ℕ) :
    ((modwtLevels f n x nlevels).1.map (energy n)).sum + energy n (modwtLevels f n x nlevels).2 =
      energy n x := by
  induction nlevels with
  | zero => exact zero_add _
  | succ m ih =>
      rw [modwtLevels_succ, List.map_append, List.sum_append, List.map_singleton,
        List.sum_singleton, add_assoc, energy_forwardLevel hf hn, ih]

/-! ## The analysis is additive -/

variable {ι : Type} {S : Finset ι}

theorem convolve_sum (move : ℤ → ℤ) (term : ι → ℕ → ℤ → K) (t : ℕ) :
    convolve move flen (fun l k => ∑ i ∈ S, term i l k) t =
      ∑ i ∈ S, convolve move flen (term i) t := by
  have hfold : ∀ (ls : List ℕ) (k : ℤ) (acc : ι → K),
      (ls.foldl (fun (r : ℤ × K) l => (move r.1, r.2 + ∑ i ∈ S, term i l (move r.1)))
          (k, ∑ i ∈ S, acc i)).2 =
        ∑ i ∈ S, (ls.foldl (fun (r : ℤ × K) l => (move r.1, r.2 + term i l (move r.1)))
          (k, acc i)).2 := by
    intro ls
    induction ls with
    | nil => exact fun _ _ => rfl
    | cons l ls ih =>
        intro k acc
        rw [List.foldl_cons, ← Finset.sum_add_distrib, ih]
        rfl
  exact hfold _ _ _

theorem inverseLevel_sum (w v : ι → Signal K) :
    modwtInverseLevel n flen (∑ i ∈ S, w i) (∑ i ∈ S, v i) g h j =
      ∑ i ∈ S, modwtInverseLevel n flen (w i) (v i) g h j := by
  funext t
  rw [Finset.sum_apply, modwtInverseLevel]
  refine Eq.trans ?_ (convolve_sum _ _ t)
  refine congrArg (fun term => convolve _ flen term t) (funext₂ fun l k => ?_)
  rw [Finset.sum_apply, Finset.sum_apply, Finset.mul_sum, Finset.mul_sum,
    ← Finset.sum_add_distrib]

theorem imodwtLevels_sum (c : ι → ℕ → Signal K) (v : ι → Signal K) (js : List ℕ) :
    imodwtLevels f n (fun k => ∑ i ∈ S, c i k) (∑ i ∈ S, v i) js =
      ∑ i ∈ S, imodwtLevels f n (c i) (v i) js := by
  induction js generalizing v with
  | nil => rfl
  | cons j js ih =>
      rw [imodwtLevels_cons, inverseLevel_sum, ih]
      rfl

theorem getD_keepOne {nlevels j k : ℕ} (wcoeffs : List (Signal K)) :
    (keepOne nlevels wcoeffs j).getD k 0 =
      if k ≤ nlevels ∧ k = j then wcoeffs.getD k 0 else 0 := by
  rw [keepOne, List.getD_eq_getElem?_getD, List.getElem?_map]
  by_cases hk : k ≤ nlevels
  · rw [List.getElem?_range (by omega), Option.map_some, Option.getD_some]
    exact if_congr (by omega) rfl rfl
  · rw [List.getElem?_eq_none (by rw [List.length_range]; omega), if_neg (by omega)]
    rfl

/-- The parts of the coefficients, put together one by one. -/
theorem sum_imodwt_keepOne {nlevels : ℕ} (wcoeffs : List (Signal K))
    (hlen : wcoeffs.length = nlevels + 1) :
    ∑ j ∈ range (nlevels + 1), imodwt f n (keepOne nlevels wcoeffs j) = imodwt f n wcoeffs := by
  have hkeep : ∀ k, wcoeffs.getD k 0 =
      ∑ j ∈ range (nlevels + 1), (keepOne nlevels wcoeffs j).getD k 0 := by
    intro k
    rw [Finset.sum_congr rfl fun j _ => getD_keepOne wcoeffs]
    by_cases hk : k ≤ nlevels
    · rw [Finset.sum_eq_single k (fun j _ hne => if_neg fun h => hne h.2.symm)
        (fun hmem => absurd (Finset.mem_range.mpr (by omega)) hmem), if_pos ⟨hk, rfl⟩]
    · rw [List.getD_eq_default _ _ (by omega)]
      exact (Finset.sum_eq_zero fun j _ => if_neg fun h => hk h.1).symm
  have hlenKeep : ∀ j, (keepOne nlevels wcoeffs j).length = nlevels + 1 := fun j => by
    rw [keepOne, List.length_map, List.length_range]
  simp only [imodwt_eq, hlen, hlenKeep]
  rw [← imodwtLevels_sum, ← hkeep, ← funext hkeep]

/-- The Haar filter. -/
noncomputable def haar : Filter ℝ where
  flen := 2
  g := fun _ => 1 / √(1 + 1)
  s := 1 / √(1 + 1)

theorem haar_square : 2 * (1 / √(1 + 1) * (1 / √(1 + 1))) = (1 : ℝ) := by
  rw [one_div_mul_one_div, Real.mul_self_sqrt (by norm_num)]
  norm_num

theorem haar_orthonormal : haar.Orthonormal where
  pos := Nat.zero_lt_two
  scale := haar_square
  shifts := by
    intro d
    change ∑ l ∈ range (2 - 2 * d), 1 / √(1 + 1) * (1 / √(1 + 1)) = if d = 0 then (1 : ℝ) else 0
    rw [Finset.sum_const, Finset.card_range, nsmul_eq_mul]
    split
    · rename_i hd
      rw [hd]
      exact haar_square
    · rw [show 2 - 2 * d = 0 by omega, Nat.cast_zero, zero_mul]

end Lush.Wavelets
