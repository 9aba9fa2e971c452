import Mathlib

/-!
# Strided boxes

An element of a multidimensional array in a flat storage is found from its subscripts:
every dimension has a modulus, the distance between neighbours, and the displacement of
the element is the sum of the subscripts times the moduli.  `low` and `high` are the least
and the greatest displacement of a box (`forall_inRange_iff`), and do not depend on the
order of the dimensions.
-/

namespace Lush.Strides

/-- A dimension of an array. -/
structure Axis where
  dim : ℤ
  mod : ℤ
deriving DecidableEq

/-- Every subscript is in the range of its dimension. -/
def InRange (ks : List ℤ) (axes : List Axis) : Prop :=
  List.Forall₂ (fun k a => 0 ≤ k ∧ k < a.dim) ks axes

/-- How far an element is from the first one. -/
def displacement (ks : List ℤ) (axes : List Axis) : ℤ :=
  (List.zipWith (fun k a => k * a.mod) ks axes).sum

/-- The dimensions are not empty. -/
def Positive (axes : List Axis) : Prop := ∀ a ∈ axes, 0 < a.dim

/-- The least displacement along a dimension. -/
def Axis.low (a : Axis) : ℤ := min 0 ((a.dim - 1) * a.mod)

/-- The greatest displacement along a dimension. -/
def Axis.high (a : Axis) : ℤ := max 0 ((a.dim - 1) * a.mod)

/-- The least displacement. -/
def low (axes : List Axis) : ℤ := (axes.map Axis.low).sum

/-- The greatest displacement. -/
def high (axes : List Axis) : ℤ := (axes.map Axis.high).sum

variable {axes axes' : List Axis} {a : Axis} {ks : List ℤ} {k : ℤ}

@[simp] theorem low_nil : low [] = 0 := rfl

@[simp] theorem high_nil : high [] = 0 := rfl

@[simp] theorem low_cons : low (a :: axes) = a.low + low axes := by
  rw [low, List.map_cons, List.sum_cons, low]

@[simp] theorem high_cons : high (a :: axes) = a.high + high axes := by
  rw [high, List.map_cons, List.sum_cons, high]

@[simp] theorem low_append : low (axes ++ axes') = low axes + low axes' := by
  rw [low, List.map_append, List.sum_append, low, low]

@[simp] theorem high_append : high (axes ++ axes') = high axes + high axes' := by
  rw [high, List.map_append, List.sum_append, high, high]

theorem low_perm (h : axes.Perm axes') : low axes = low axes' := (h.map _).sum_eq

theorem high_perm (h : axes.Perm axes') : high axes = high axes' := (h.map _).sum_eq

theorem Positive.perm (hpos : Positive axes) (h : axes.Perm axes') : Positive axes' :=
  fun a ha => hpos a (h.mem_iff.mpr ha)

@[simp] theorem positive_nil : Positive [] := fun _ h => nomatch h

@[simp] theorem positive_cons : Positive (a :: axes) ↔ 0 < a.dim ∧ Positive axes :=
  List.forall_mem_cons

@[simp] theorem positive_append : Positive (axes ++ axes') ↔ Positive axes ∧ Positive axes' :=
  List.forall_mem_append

theorem low_nonpos (axes : List Axis) : low axes ≤ 0 := by
  induction axes with
  | nil => exact le_rfl
  | cons a axes ih =>
      have ha : a.low ≤ 0 := min_le_left _ _
      rw [low_cons]
      omega

theorem high_nonneg (axes : List Axis) : 0 ≤ high axes := by
  induction axes with
  | nil => exact le_rfl
  | cons a axes ih =>
      have ha : 0 ≤ a.high := le_max_left _ _
      rw [high_cons]
      omega

/-! ## The elements between the least and the greatest displacement -/

theorem Axis.low_le (h0 : 0 ≤ k) (hk : k < a.dim) : a.low ≤ k * a.mod := by
  rcases le_total 0 a.mod with hmod | hmod
  · exact (min_le_left _ _).trans (mul_nonneg h0 hmod)
  · exact (min_le_right _ _).trans (mul_le_mul_of_nonpos_right (by omega) hmod)

theorem Axis.le_high (h0 : 0 ≤ k) (hk : k < a.dim) : k * a.mod ≤ a.high := by
  rcases le_total 0 a.mod with hmod | hmod
  · exact (mul_le_mul_of_nonneg_right (by omega) hmod).trans (le_max_right _ _)
  · exact (mul_nonpos_of_nonneg_of_nonpos h0 hmod).trans (le_max_left _ _)

theorem displacement_cons : displacement (k :: ks) (a :: axes) = k * a.mod + displacement ks axes := by
  rw [displacement, List.zipWith_cons_cons, List.sum_cons, displacement]

theorem InRange.low_le (h : InRange ks axes) : low axes ≤ displacement ks axes := by
  induction h with
  | nil => exact le_rfl
  | cons hk _ ih =>
      rw [low_cons, displacement_cons]
      exact add_le_add (Axis.low_le hk.1 hk.2) ih

theorem InRange.le_high (h : InRange ks axes) : displacement ks axes ≤ high axes := by
  induction h with
  | nil => exact le_rfl
  | cons hk _ ih =>
      rw [high_cons, displacement_cons]
      exact add_le_add (Axis.le_high hk.1 hk.2) ih

theorem Axis.exists_eq (h : 0 < a.dim) {v : ℤ} (hv : v = 0 ∨ v = (a.dim - 1) * a.mod) :
    ∃ k, (0 ≤ k ∧ k < a.dim) ∧ k * a.mod = v := by
  rcases hv with rfl | rfl
  · exact ⟨0, ⟨le_rfl, h⟩, zero_mul _⟩
  · exact ⟨a.dim - 1, ⟨by omega, by omega⟩, rfl⟩

theorem exists_low (h : Positive axes) : ∃ ks, InRange ks axes ∧ displacement ks axes = low axes := by
  induction axes with
  | nil => exact ⟨[], .nil, rfl⟩
  | cons a axes ih =>
      obtain ⟨ha, hrest⟩ := positive_cons.mp h
      obtain ⟨ks, hks, hlow⟩ := ih hrest
      obtain ⟨k, hk, hv⟩ := Axis.exists_eq ha (min_choice 0 ((a.dim - 1) * a.mod))
      refine ⟨k :: ks, .cons hk hks, ?_⟩
      rw [displacement_cons, hv, hlow, low_cons, Axis.low]

theorem exists_high (h : Positive axes) :
    ∃ ks, InRange ks axes ∧ displacement ks axes = high axes := by
  induction axes with
  | nil => exact ⟨[], .nil, rfl⟩
  | cons a axes ih =>
      obtain ⟨ha, hrest⟩ := positive_cons.mp h
      obtain ⟨ks, hks, hhigh⟩ := ih hrest
      obtain ⟨k, hk, hv⟩ := Axis.exists_eq ha (max_choice 0 ((a.dim - 1) * a.mod))
      refine ⟨k :: ks, .cons hk hks, ?_⟩
      rw [displacement_cons, hv, hhigh, high_cons, Axis.high]

/-- **All elements of a box lie in an interval if and only if the outermost ones do.** -/
theorem forall_inRange_iff (h : Positive axes) {offset lo hi : ℤ} :
    (∀ ks, InRange ks axes → lo ≤ offset + displacement ks axes ∧
        offset + displacement ks axes < hi) ↔
      lo ≤ offset + low axes ∧ offset + high axes < hi := by
  refine ⟨fun hall => ?_, ?_⟩
  · obtain ⟨ks, hks, hlow⟩ := exists_low h
    obtain ⟨ks', hks', hhigh⟩ := exists_high h
    exact ⟨hlow ▸ (hall ks hks).1, hhigh ▸ (hall ks' hks').2⟩
  · rintro ⟨hlo, hhi⟩ ks hks
    have hle := hks.low_le
    have hge := hks.le_high
    exact ⟨by omega, by omega⟩

/-! ## Parts of a dimension -/

theorem Axis.low_eq (a : Axis) (h : 0 < a.dim) : ∃ k, (0 ≤ k ∧ k < a.dim) ∧ k * a.mod = a.low :=
  Axis.exists_eq h (min_choice _ _)

theorem Axis.high_eq (a : Axis) (h : 0 < a.dim) :
    ∃ k, (0 ≤ k ∧ k < a.dim) ∧ k * a.mod = a.high :=
  Axis.exists_eq h (max_choice _ _)

/-- An interval of a dimension. -/
theorem Axis.part_bounds {start size : ℤ} (h0 : 0 ≤ start) (hsize : 0 < size)
    (hle : size + start ≤ a.dim) : a.low ≤ start * a.mod + Axis.low ⟨size, a.mod⟩ ∧
      start * a.mod + Axis.high ⟨size, a.mod⟩ ≤ a.high := by
  obtain ⟨k, hk, hlow⟩ := Axis.low_eq ⟨size, a.mod⟩ hsize
  obtain ⟨l, hl, hhigh⟩ := Axis.high_eq ⟨size, a.mod⟩ hsize
  rw [← hlow, ← hhigh, ← add_mul, ← add_mul]
  exact ⟨Axis.low_le (by omega) (by simp only at hk; omega),
    Axis.le_high (by omega) (by simp only at hl; omega)⟩

/-- A dimension that is cut into overlapping pieces. -/
theorem Axis.fold_bounds {pieces size step : ℤ} (hpieces : 0 < pieces) (hsize : 0 < size)
    (hstep : 0 < step) (hdim : a.dim = step * (pieces - 1) + size) :
    a.low ≤ Axis.low ⟨pieces, a.mod * step⟩ + Axis.low ⟨size, a.mod⟩ ∧
      Axis.high ⟨pieces, a.mod * step⟩ + Axis.high ⟨size, a.mod⟩ ≤ a.high := by
  have hin : ∀ k l : ℤ, 0 ≤ k ∧ k < pieces → 0 ≤ l ∧ l < size →
      0 ≤ k * step + l ∧ k * step + l < a.dim := by
    rintro k l ⟨hk0, hk⟩ ⟨hl0, hl⟩
    have hmul : k * step ≤ (pieces - 1) * step := mul_le_mul_of_nonneg_right (by omega) hstep.le
    have hnonneg : 0 ≤ k * step := mul_nonneg hk0 hstep.le
    rw [mul_comm] at hdim
    omega
  have hsum : ∀ k l : ℤ, k * (a.mod * step) + l * a.mod = (k * step + l) * a.mod := by
    intro k l
    ring
  obtain ⟨k, hk, hklow⟩ := Axis.low_eq ⟨pieces, a.mod * step⟩ hpieces
  obtain ⟨l, hl, hllow⟩ := Axis.low_eq ⟨size, a.mod⟩ hsize
  obtain ⟨k', hk', hkhigh⟩ := Axis.high_eq ⟨pieces, a.mod * step⟩ hpieces
  obtain ⟨l', hl', hlhigh⟩ := Axis.high_eq ⟨size, a.mod⟩ hsize
  rw [← hklow, ← hllow, ← hkhigh, ← hlhigh]
  simp only [hsum]
  exact ⟨Axis.low_le (hin k l hk hl).1 (hin k l hk hl).2,
    Axis.le_high (hin k' l' hk' hl').1 (hin k' l' hk' hl').2⟩

theorem inRange_replicate (h : ∀ a ∈ axes, 0 ≤ k ∧ k < a.dim) :
    InRange (List.replicate axes.length k) axes := by
  induction axes with
  | nil => exact .nil
  | cons a axes ih =>
      obtain ⟨ha, hrest⟩ := List.forall_mem_cons.mp h
      exact .cons ha (ih hrest)

theorem displacement_replicate (axes : List Axis) (k : ℤ) :
    displacement (List.replicate axes.length k) axes = k * (axes.map Axis.mod).sum := by
  induction axes with
  | nil => simp [displacement]
  | cons a axes ih =>
      rw [List.length_cons, List.replicate_succ, displacement_cons, ih, List.map_cons,
        List.sum_cons, mul_add]

/-- The diagonal of dimensions of one size. -/
theorem diagonal_bounds {n : ℤ} (hn : 0 < n) (h : ∀ a ∈ axes, a.dim = n) :
    low axes ≤ Axis.low ⟨n, (axes.map Axis.mod).sum⟩ ∧
      Axis.high ⟨n, (axes.map Axis.mod).sum⟩ ≤ high axes := by
  obtain ⟨k, hk, hlow⟩ := Axis.low_eq ⟨n, (axes.map Axis.mod).sum⟩ hn
  obtain ⟨l, hl, hhigh⟩ := Axis.high_eq ⟨n, (axes.map Axis.mod).sum⟩ hn
  rw [← hlow, ← hhigh, ← displacement_replicate, ← displacement_replicate]
  exact ⟨(inRange_replicate fun a ha => h a ha ▸ hk).low_le,
    (inRange_replicate fun a ha => h a ha ▸ hl).le_high⟩

/-! ## Contiguous arrays -/

/-- The dimensions of a contiguous array: the last subscript moves fastest. -/
def rowMajor : List ℤ → List Axis
  | [] => []
  | d :: dims => ⟨d, dims.prod⟩ :: rowMajor dims

@[simp] theorem map_dim_rowMajor (dims : List ℤ) : (rowMajor dims).map Axis.dim = dims := by
  induction dims with
  | nil => rfl
  | cons d dims ih => rw [rowMajor, List.map_cons, ih]

theorem positive_rowMajor {dims : List ℤ} (h : ∀ d ∈ dims, 0 < d) : Positive (rowMajor dims) := by
  induction dims with
  | nil => exact positive_nil
  | cons d dims ih =>
      obtain ⟨hd, hrest⟩ := List.forall_mem_cons.mp h
      exact positive_cons.mpr ⟨hd, ih hrest⟩

theorem low_rowMajor {dims : List ℤ} (h : ∀ d ∈ dims, 0 < d) : low (rowMajor dims) = 0 := by
  induction dims with
  | nil => rfl
  | cons d dims ih =>
      obtain ⟨hd, hrest⟩ := List.forall_mem_cons.mp h
      have hprod : 0 < dims.prod := List.prod_pos hrest
      have hnonneg : 0 ≤ (d - 1) * dims.prod := mul_nonneg (by omega) hprod.le
      rw [rowMajor, low_cons, ih hrest, Axis.low, min_eq_left hnonneg, add_zero]

theorem high_rowMajor {dims : List ℤ} (h : ∀ d ∈ dims, 0 < d) :
    high (rowMajor dims) = dims.prod - 1 := by
  induction dims with
  | nil => rfl
  | cons d dims ih =>
      obtain ⟨hd, hrest⟩ := List.forall_mem_cons.mp h
      have hprod : 0 < dims.prod := List.prod_pos hrest
      have hnonneg : 0 ≤ (d - 1) * dims.prod := mul_nonneg (by omega) hprod.le
      rw [rowMajor, high_cons, ih hrest, Axis.high, max_eq_right hnonneg, List.prod_cons]
      ring

/-! ## All elements -/

/-- The displacements of all elements, the last subscript moving fastest. -/
def offsets : List Axis → List ℤ
  | [] => [0]
  | a :: axes =>
      (List.range a.dim.toNat).flatMap fun (k : ℕ) => (offsets axes).map (k * a.mod + ·)

/-- The number of elements. -/
def count (axes : List Axis) : ℕ := (axes.map fun a => a.dim.toNat).prod

@[simp] theorem count_nil : count [] = 1 := rfl

@[simp] theorem count_cons : count (a :: axes) = a.dim.toNat * count axes := by
  rw [count, List.map_cons, List.prod_cons, count]

@[simp] theorem length_offsets (axes : List Axis) : (offsets axes).length = count axes := by
  induction axes with
  | nil => rfl
  | cons a axes ih => simp [offsets, ih]

theorem count_pos (h : Positive axes) : 0 < count axes := by
  induction axes with
  | nil => exact Nat.one_pos
  | cons a axes ih =>
      obtain ⟨ha, hrest⟩ := positive_cons.mp h
      rw [count_cons]
      exact Nat.mul_pos (by omega) (ih hrest)

theorem mem_offsets {o : ℤ} (h : o ∈ offsets axes) :
    ∃ ks, InRange ks axes ∧ displacement ks axes = o := by
  induction axes generalizing o with
  | nil =>
      rw [offsets, List.mem_singleton] at h
      exact ⟨[], .nil, h.symm⟩
  | cons a axes ih =>
      obtain ⟨k, hk, ho⟩ := List.mem_flatMap.mp h
      obtain ⟨o', ho', rfl⟩ := List.mem_map.mp ho
      obtain ⟨ks, hks, rfl⟩ := ih ho'
      have hlt := List.mem_range.mp hk
      exact ⟨k :: ks, .cons ⟨by omega, by omega⟩ hks, displacement_cons⟩

theorem count_rowMajor {dims : List ℤ} (h : ∀ d ∈ dims, 0 < d) :
    (count (rowMajor dims) : ℤ) = dims.prod := by
  induction dims with
  | nil => rfl
  | cons d dims ih =>
      obtain ⟨hd, hrest⟩ := List.forall_mem_cons.mp h
      rw [rowMajor, count_cons, List.prod_cons, Nat.cast_mul, ih hrest, Int.toNat_of_nonneg hd.le]

theorem count_eq_prod (h : Positive axes) : (count axes : ℤ) = (axes.map Axis.dim).prod := by
  induction axes with
  | nil => rfl
  | cons a axes ih =>
      obtain ⟨ha, hrest⟩ := positive_cons.mp h
      rw [count_cons, List.map_cons, List.prod_cons, Nat.cast_mul, ih hrest,
        Int.toNat_of_nonneg ha.le]

/-- The blocks of a range. -/
theorem range_mul (m n : ℕ) : List.range (m * n) =
    (List.range m).flatMap fun k => (List.range n).map (k * n + ·) := by
  induction m with
  | zero => simp
  | succ m ih =>
      rw [Nat.succ_mul, List.range_add, ih, List.range_succ, List.flatMap_append,
        List.flatMap_singleton]

/-- **The elements of a contiguous array are those of the storage, in order.** -/
theorem offsets_rowMajor {dims : List ℤ} (h : ∀ d ∈ dims, 0 < d) :
    offsets (rowMajor dims) = (List.range (count (rowMajor dims))).map Nat.cast := by
  induction dims with
  | nil => rfl
  | cons d dims ih =>
      obtain ⟨hd, hrest⟩ := List.forall_mem_cons.mp h
      rw [rowMajor, offsets, count_cons, range_mul, List.map_flatMap]
      refine List.flatMap_congr fun k _ => ?_
      rw [ih hrest, List.map_map, List.map_map, ← count_rowMajor hrest]
      refine List.map_congr_left fun i _ => ?_
      simp

end Lush.Strides
