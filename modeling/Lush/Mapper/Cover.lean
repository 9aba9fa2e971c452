import Lush.Basic
import Lush.Mapper.SingleLinkage

/-!
# The cover of a lens

The functions `mapper-cover-fit` and `mapper-cover-transform` of `cover.lsh`, in exact
arithmetic.  The values of a lens are covered, in each of its one or two dimensions, by
evenly spaced intervals of one radius; consecutive centers are at most two radii apart
(`exists_center`), and the hypercubes are the products of the intervals.
-/

namespace Lush.Mapper

variable {K : Type} [Field K] [LinearOrder K]

/-! ## `mapper-cover-fit` -/

/-- The bounds `mn` and `mx` are moved to a value that is not between them. -/
def widen (v : K) (b : K × K) : K × K :=
  (if v < b.1 then v else b.1, if b.2 < v then v else b.2)

/-- The smallest and the largest of the first `n` values. -/
def bounds (n : ℕ) (values : ℕ → K) : K × K :=
  rounds (fun i => widen (values i)) n (10 ^ 308, -10 ^ 308)

/-- The radius for `nc` intervals of the overlap `ov`. -/
def coverRadius (lo hi : K) (nc : ℕ) (ov : K) : K :=
  (hi - lo + 1 / 10 ^ 10) / (2 * nc * (1 - ov))

/-- The centers of the intervals. -/
def coverCenters (lo hi : K) (nc : ℕ) (r : K) : List K :=
  let clo := lo + r
  let chi := hi - r
  if nc = 1 then [1 / 2 * (lo + hi)]
  else (List.range nc).map fun k : ℕ => clo + k * ((chi - clo) / (max 1 (nc - 1) : ℕ))

/-- The centers of the hypercubes, and the radius of each dimension. -/
structure Cover (K : Type) where
  centers : List (List K)
  radii : ℕ → K

/-- `mapper-cover-fit`, for a lens of `n` rows and one or two columns. -/
def mapperCoverFit (n ndims : ℕ) (lens : ℕ → ℕ → K) (nCubes : ℕ → ℕ) (percOverlap : ℕ → K) :
    Cover K :=
  let lo := fun d => (bounds n fun i => lens i d).1
  let hi := fun d => (bounds n fun i => lens i d).2
  let radii := fun d => coverRadius (lo d) (hi d) (nCubes d) (percOverlap d)
  let ctrs := fun d => coverCenters (lo d) (hi d) (nCubes d) (radii d)
  ⟨if ndims = 1 then (ctrs 0).map fun c => [c]
    else (ctrs 0).flatMap fun c1 => (ctrs 1).map fun c2 => [c1, c2], radii⟩

/-! ## `mapper-cover-transform` -/

/-- A point is in the hypercube with the center `center`. -/
def inside (ndims : ℕ) (lens : ℕ → ℕ → K) (radii : ℕ → K) (center : List K) (i : ℕ) : Bool :=
  (List.range ndims).all fun d =>
    !(lens i d < center.getD d 0 - radii d || center.getD d 0 + radii d < lens i d)

/-- The points in a hypercube, in order. -/
def members (n ndims : ℕ) (lens : ℕ → ℕ → K) (radii : ℕ → K) (center : List K) : List ℕ :=
  (List.range n).filter (inside ndims lens radii center)

/-- `mapper-cover-transform`.  The array of an empty hypercube has one element, which is
zero. -/
def mapperCoverTransform (n ndims : ℕ) (lens : ℕ → ℕ → K) (cover : Cover K) : List (List ℕ) :=
  cover.centers.map fun center =>
    let hc := members n ndims lens cover.radii center
    if hc = [] then [0] else hc

/-! ## Every point is in a hypercube -/

variable {n nc : ℕ} {lo hi ov r v : K}

omit [Field K] in
theorem widen_eq (v : K) (b : K × K) : widen v b = (min v b.1, max b.2 v) := by
  have hmin : (if v < b.1 then v else b.1) = min v b.1 := by
    split_ifs with h
    · exact (min_eq_left h.le).symm
    · exact (min_eq_right (not_lt.mp h)).symm
  have hmax : (if b.2 < v then v else b.2) = max b.2 v := by
    split_ifs with h
    · exact (max_eq_right h.le).symm
    · exact (max_eq_left (not_lt.mp h)).symm
  rw [widen, hmin, hmax]

theorem bounds_spec (values : ℕ → K) (n : ℕ) :
    ∀ i < n, (bounds n values).1 ≤ values i ∧ values i ≤ (bounds n values).2 := by
  unfold bounds
  induction n with
  | zero => exact fun i hi => absurd hi (Nat.not_lt_zero i)
  | succ n ih =>
      intro i hi
      rw [rounds, widen_eq]
      by_cases hin : i = n
      · rw [hin]
        exact ⟨min_le_left _ _, le_max_right _ _⟩
      · obtain ⟨hl, hh⟩ := ih i (by omega)
        exact ⟨(min_le_right _ _).trans hl, hh.trans (le_max_left _ _)⟩

section Field

variable [IsStrictOrderedRing K]

/-- The intervals together are as long as the range, or longer. -/
theorem range_le_radius (hnc : 1 ≤ nc) (h0 : 0 ≤ ov) (h1 : ov < 1) (hrange : lo ≤ hi) :
    hi - lo ≤ 2 * nc * coverRadius lo hi nc ov := by
  have hn : (0 : K) < 2 * nc := by
    have : (0 : K) < nc := by exact_mod_cast hnc
    linarith
  have hov : 0 < 1 - ov := by linarith
  have heq : 2 * nc * coverRadius lo hi nc ov = (hi - lo + 1 / 10 ^ 10) / (1 - ov) := by
    rw [coverRadius]
    field_simp
  have hpos : (0 : K) < 1 / 10 ^ 10 := by positivity
  rw [heq, le_div_iff₀ hov]
  have hshrink : (hi - lo) * (1 - ov) ≤ hi - lo :=
    mul_le_of_le_one_right (by linarith) (by linarith)
  linarith

/-- Intervals of the radius `r` whose centers are at most two radii apart leave no gap. -/
theorem exists_interval {first step : K} (hstep : step ≤ 2 * r) (hlo : first - r ≤ v) (m : ℕ)
    (hhi : v ≤ first + m * step + r) :
    ∃ k ≤ m, first + k * step - r ≤ v ∧ v ≤ first + k * step + r := by
  induction m with
  | zero =>
      refine ⟨0, le_rfl, ?_, hhi⟩
      push_cast
      linarith
  | succ m ih =>
      by_cases hlow : first + (m + 1 : ℕ) * step - r ≤ v
      · exact ⟨m + 1, le_rfl, hlow, hhi⟩
      · push_cast at hlow
        obtain ⟨k, hk, hkv⟩ := ih (by linarith)
        exact ⟨k, by omega, hkv⟩

/-- Every value of the range is in one of the intervals. -/
theorem exists_center (hnc : 1 ≤ nc) (hr : hi - lo ≤ 2 * nc * r) (hlo : lo ≤ v) (hhi : v ≤ hi) :
    ∃ c ∈ coverCenters lo hi nc r, c - r ≤ v ∧ v ≤ c + r := by
  unfold coverCenters
  simp only
  split_ifs with hone
  · subst hone
    push_cast at hr
    refine ⟨_, List.mem_singleton_self _, ?_, ?_⟩
    · linarith
    · linarith
  · have hmax : ((max 1 (nc - 1) : ℕ) : K) = nc - 1 := by
      rw [max_eq_right (by omega), Nat.cast_sub hnc, Nat.cast_one]
    have hpos : (0 : K) < nc - 1 := by
      have : (1 : K) < nc := by exact_mod_cast (by omega : 1 < nc)
      linarith
    rw [hmax]
    have hstep : (hi - r - (lo + r)) / ((nc : K) - 1) ≤ 2 * r := by
      rw [div_le_iff₀ hpos]
      linarith
    have hlast : v ≤ lo + r + (nc - 1 : ℕ) * ((hi - r - (lo + r)) / ((nc : K) - 1)) + r := by
      rw [Nat.cast_sub hnc, Nat.cast_one, mul_div_cancel₀ _ hpos.ne']
      linarith
    obtain ⟨k, hk, hkv⟩ := exists_interval hstep (by linarith) (nc - 1) hlast
    have hkn : k < nc := by omega
    exact ⟨_, List.mem_map.mpr ⟨k, List.mem_range.mpr hkn, rfl⟩, hkv⟩

/-- **Every point is in at least one hypercube of the cover.** -/
theorem mapperCoverFit_covers {ndims : ℕ} {lens : ℕ → ℕ → K} {nCubes : ℕ → ℕ}
    {percOverlap : ℕ → K} (hdims : ndims = 1 ∨ ndims = 2) (hcubes : ∀ d, 1 ≤ nCubes d)
    (h0 : ∀ d, 0 ≤ percOverlap d) (h1 : ∀ d, percOverlap d < 1) {i : ℕ} (hi : i < n) :
    ∃ center ∈ (mapperCoverFit n ndims lens nCubes percOverlap).centers,
      inside ndims lens (mapperCoverFit n ndims lens nCubes percOverlap).radii center i = true := by
  have hcenter : ∀ d, ∃ c ∈ coverCenters (bounds n fun i => lens i d).1
      (bounds n fun i => lens i d).2 (nCubes d)
        ((mapperCoverFit n ndims lens nCubes percOverlap).radii d),
      c - (mapperCoverFit n ndims lens nCubes percOverlap).radii d ≤ lens i d ∧
        lens i d ≤ c + (mapperCoverFit n ndims lens nCubes percOverlap).radii d := by
    intro d
    obtain ⟨hlow, hhigh⟩ := bounds_spec (fun i => lens i d) n i hi
    exact exists_center (hcubes d)
      (range_le_radius (hcubes d) (h0 d) (h1 d) (hlow.trans hhigh)) hlow hhigh
  obtain ⟨c1, hc1, hlow1, hhigh1⟩ := hcenter 0
  obtain ⟨c2, hc2, hlow2, hhigh2⟩ := hcenter 1
  rcases hdims with rfl | rfl
  · refine ⟨[c1], List.mem_map.mpr ⟨c1, hc1, rfl⟩, ?_⟩
    simp [inside, List.range_succ, hlow1, hhigh1]
  · refine ⟨[c1, c2], List.mem_flatMap.mpr ⟨c1, hc1, List.mem_map.mpr ⟨c2, hc2, rfl⟩⟩, ?_⟩
    simp [inside, List.range_succ, hlow1, hhigh1, hlow2, hhigh2]

end Field

end Lush.Mapper
