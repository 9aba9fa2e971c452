import Lush.Arrays.Shape
import Lush.Library.Runs

/-!
# Indexes stay inside their storages

Element access trusts the offset and the moduli of an index.  The functions that edit an
index keep all its elements inside the storage (`Edit.bounded`).  There are two exceptions
among the functions that make indexes or give them dimensions: `index_from_index` lets a
collapsed dimension start at its very end, and `index_dimension` does not look at the
offset that an index may still have.  All indexes stay inside in every state of a run if
and only if neither of them goes beyond the storage (`inside_storage`).
-/

namespace Lush.Arrays

open Strides Runs

variable {s s' : State} {ind ind' base : Index} {size : ℤ}

/-! ## What an index reaches -/

/-- The outermost elements are inside a storage. -/
def Bounded (size : ℤ) (ind : Index) : Prop :=
  0 ≤ ind.offset + low ind.axes ∧ ind.offset + high ind.axes < size

/-- An index whose elements are all in a storage of some size.  Without dimensions it has
none. -/
structure Index.Legal (size : ℤ) (ind : Index) : Prop where
  length : ind.axes.length ≤ maxDims
  positive : Positive ind.axes
  unsized : ind.unsized = true → ind.axes = []
  inside : ind.unsized = false → Bounded size ind

/-- The second index is on the storage of the first one, and reaches no farther. -/
structure Narrows (ind ind' : Index) : Prop where
  st : ind'.st = ind.st
  unsized : ind'.unsized = ind.unsized
  positive : Positive ind'.axes
  low : ind.offset + low ind.axes ≤ ind'.offset + low ind'.axes
  high : ind'.offset + high ind'.axes ≤ ind.offset + high ind.axes

theorem Narrows.bounded (h : Narrows ind ind') (hind : Bounded size ind) : Bounded size ind' :=
  ⟨hind.1.trans h.low, h.high.trans_lt hind.2⟩

/-- Only one dimension changes. -/
theorem narrows_of_perm (a : Axis) (rest parts : List Axis)
    (hframe : ind'.st = ind.st ∧ ind'.unsized = ind.unsized) (haxes : ind.axes.Perm (a :: rest))
    (haxes' : ind'.axes.Perm (parts ++ rest)) (hpos : Positive ind.axes)
    (hparts : Positive parts) (hlow : ind.offset + a.low ≤ ind'.offset + low parts)
    (hhigh : ind'.offset + high parts ≤ ind.offset + a.high) : Narrows ind ind' := by
  have hrest : Positive rest := (positive_cons.mp (hpos.perm haxes)).2
  refine ⟨hframe.1, hframe.2, Positive.perm (positive_append.mpr ⟨hparts, hrest⟩) haxes'.symm,
    ?_, ?_⟩
  · rw [low_perm haxes, low_perm haxes', low_cons, low_append]
    omega
  · rw [high_perm haxes, high_perm haxes', high_cons, high_append]
    omega

/-- The dimensions stay, maybe in another order. -/
theorem narrows_of_same (hframe : ind'.st = ind.st ∧ ind'.unsized = ind.unsized)
    (haxes : ind'.axes.Perm ind.axes) (hoffset : ind'.offset = ind.offset)
    (hpos : Positive ind.axes) : Narrows ind ind' := by
  refine ⟨hframe.1, hframe.2, hpos.perm haxes.symm, ?_, ?_⟩
  · rw [low_perm haxes, hoffset]
  · rw [high_perm haxes, hoffset]

/-- One dimension and the others, in a list and after the one has been set. -/
theorem perm_at {axes : List Axis} {d : ℕ} {a : Axis} (h : axes[d]? = some a) :
    axes.Perm (a :: axes.eraseIdx d) ∧ ∀ b, (axes.set d b).Perm (b :: axes.eraseIdx d) := by
  obtain ⟨hd, hget⟩ := List.getElem?_eq_some_iff.mp h
  refine ⟨?_, fun b => List.set_perm_cons_eraseIdx hd b⟩
  rw [← hget]
  exact (List.getElem_cons_eraseIdx_perm hd).symm

theorem sizeBounds_eq {axes : List Axis} (hpos : Positive axes) (sizeMin sizeMax : ℤ) :
    sizeBounds sizeMin sizeMax axes = (sizeMin + low axes, sizeMax + high axes) := by
  induction axes generalizing sizeMin sizeMax with
  | nil => simp [sizeBounds]
  | cons a axes ih =>
      obtain ⟨ha, hrest⟩ := positive_cons.mp hpos
      rw [sizeBounds, ih hrest, ih hrest, low_cons, high_cons, Axis.low, Axis.high]
      split_ifs with hmod
      · have hle : (a.dim - 1) * a.mod ≤ 0 :=
          mul_nonpos_of_nonneg_of_nonpos (by omega) hmod.le
        rw [min_eq_right hle, max_eq_left hle, zero_add, add_assoc]
      · have hge : 0 ≤ (a.dim - 1) * a.mod := mul_nonneg (by omega) (by omega)
        rw [min_eq_left hge, max_eq_right hge, zero_add, add_assoc]

/-- **`index_check_size` is exact.** -/
theorem indexCheckSize_iff (hpos : Positive ind.axes) :
    indexCheckSize size ind = false ↔ Bounded size ind := by
  have hlow := low_nonpos ind.axes
  unfold indexCheckSize Bounded
  rw [sizeBounds_eq hpos]
  split_ifs with hneg
  · simp only [false_iff, not_and]
    omega
  · simp

theorem checked_eq_some (h : checked size ind = some ind') :
    ind' = ind ∧ indexCheckSize size ind = false := by
  unfold checked at h
  split_ifs at h with hcheck
  exact ⟨(Option.some.inj h).symm, Bool.eq_false_of_not_eq_true hcheck⟩

/-! ## Edits -/

theorem xindexUnfold_narrows {d : ℕ} {sz st : ℤ} (h : xindexUnfold d sz st ind = some ind')
    (hpos : Positive ind.axes) : Narrows ind ind' := by
  obtain ⟨a, ha, h⟩ := Option.bind_eq_some_iff.mp h
  simp only at h
  split_ifs at h with hargs hdim hmax
  cases h
  push Not at hargs hdim
  obtain ⟨haxes, hset⟩ := perm_at ha
  obtain ⟨hlow, hhigh⟩ := Axis.fold_bounds hdim.1 (by omega) (by omega) hdim.2
  have hperm (b c : Axis) :
      (ind.axes.set d b ++ [c]).Perm ([b, c] ++ ind.axes.eraseIdx d) :=
    ((hset b).append_right [c]).trans (List.perm_append_comm.cons b)
  refine narrows_of_perm a _ _ ⟨rfl, rfl⟩ haxes (hperm _ _) hpos ?_ ?_ ?_
  · exact positive_cons.mpr ⟨hdim.1, positive_cons.mpr ⟨hargs.1, positive_nil⟩⟩
  · simp only [low_cons, low_nil]
    omega
  · simp only [high_cons, high_nil]
    omega

theorem xindexNarrow_narrows {d : ℕ} {sz st : ℤ} (h : xindexNarrow d sz st ind = some ind')
    (hpos : Positive ind.axes) : Narrows ind ind' := by
  obtain ⟨a, ha, h⟩ := Option.bind_eq_some_iff.mp h
  split_ifs at h with hargs hdim
  cases h
  push Not at hargs hdim
  obtain ⟨haxes, hset⟩ := perm_at ha
  obtain ⟨hlow, hhigh⟩ := Axis.part_bounds hargs.2 (by omega : 0 < sz) (a := a) (by omega)
  refine narrows_of_perm a _ [⟨sz, a.mod⟩] ⟨rfl, rfl⟩ haxes (hset _) hpos ?_ ?_ ?_
  · exact positive_cons.mpr ⟨hargs.1, positive_nil⟩
  · simp only [low_cons, low_nil]
    omega
  · simp only [high_cons, high_nil]
    omega

theorem xindexSelect_narrows {d : ℕ} {x : ℤ} (h : xindexSelect d x ind = some ind')
    (hpos : Positive ind.axes) : Narrows ind ind' := by
  obtain ⟨a, ha, h⟩ := Option.bind_eq_some_iff.mp h
  split_ifs at h with hargs
  cases h
  push Not at hargs
  obtain ⟨haxes, -⟩ := perm_at ha
  have hlow := Axis.low_le hargs.1 hargs.2
  have hhigh := Axis.le_high hargs.1 hargs.2
  refine narrows_of_perm a _ [] ⟨rfl, rfl⟩ haxes (List.Perm.refl _) hpos positive_nil ?_ ?_
  · simp only [low_nil]
    omega
  · simp only [high_nil]
    omega

theorem xindexDiagonal_narrows {d : ℕ} (h : xindexDiagonal d ind = some ind')
    (hpos : Positive ind.axes) : Narrows ind ind' := by
  obtain ⟨first, hfirst, h⟩ := Option.bind_eq_some_iff.mp h
  split_ifs at h with hargs hdims
  cases h
  have hn : 0 < first.dim := hpos first (List.mem_of_getElem? hfirst)
  obtain ⟨hlow, hhigh⟩ := diagonal_bounds hn hdims
  have hsplit := List.take_append_drop (ind.axes.length - d) ind.axes
  have htake : Positive (ind.axes.take (ind.axes.length - d)) :=
    fun a ha => hpos a (List.mem_of_mem_take ha)
  refine ⟨rfl, rfl, ?_, ?_, ?_⟩
  · simp only [positive_append, positive_cons]
    exact ⟨htake, hn, positive_nil⟩
  · have hlow' : low ind.axes = low (ind.axes.take (ind.axes.length - d)) +
        low (ind.axes.drop (ind.axes.length - d)) := by rw [← low_append, hsplit]
    simp only [low_append, low_cons, low_nil]
    omega
  · have hhigh' : high ind.axes = high (ind.axes.take (ind.axes.length - d)) +
        high (ind.axes.drop (ind.axes.length - d)) := by rw [← high_append, hsplit]
    simp only [high_append, high_cons, high_nil]
    omega

theorem filterMap_range (axes : List Axis) :
    (List.range axes.length).filterMap (fun j => axes[j]?) = axes := by
  induction axes with
  | nil => rfl
  | cons a axes ih =>
      rw [List.length_cons, List.range_succ_eq_map, 
        List.filterMap_cons_some (f := fun j => (a :: axes)[j]?) rfl,
        List.filterMap_map]
      exact congrArg (a :: ·) ih

theorem xindexTranspose_narrows {table : List ℕ} (h : xindexTranspose table ind = some ind')
    (hpos : Positive ind.axes) : Narrows ind ind' := by
  unfold xindexTranspose at h
  split_ifs at h with htable
  cases h
  obtain ⟨hlen, hlt, hnodup⟩ := htable
  have hsub : table ⊆ List.range ind.axes.length := by
    intro j hj
    rw [List.mem_range, ← hlen]
    exact hlt j hj
  have hperm : table.Perm (List.range ind.axes.length) :=
    (List.subperm_of_subset hnodup hsub).perm_of_length_le (by rw [List.length_range, hlen])
  have haxes : (table.filterMap fun j => ind.axes[j]?).Perm ind.axes := by
    have hmap := hperm.filterMap fun j => ind.axes[j]?
    rwa [filterMap_range] at hmap
  exact narrows_of_same ⟨rfl, rfl⟩ haxes rfl hpos

theorem xindexTranspose2_narrows {d1 d2 : ℕ} (h : xindexTranspose2 d1 d2 ind = some ind')
    (hpos : Positive ind.axes) : Narrows ind ind' := by
  obtain ⟨a1, ha1, h⟩ := Option.bind_eq_some_iff.mp h
  obtain ⟨a2, ha2, h⟩ := Option.bind_eq_some_iff.mp h
  split_ifs at h with hne
  cases h
  have hset : (ind.axes.set d1 a2)[d2]? = some a2 := by
    rw [List.getElem?_set_ne hne]
    exact ha2
  obtain ⟨haxes, hset1⟩ := perm_at ha1
  obtain ⟨hrest, hset2⟩ := perm_at hset
  have hothers : ((ind.axes.set d1 a2).eraseIdx d2).Perm (ind.axes.eraseIdx d1) :=
    (hrest.symm.trans (hset1 a2)).cons_inv
  exact narrows_of_same ⟨rfl, rfl⟩ ((hset2 a1).trans ((hothers.cons a1).trans haxes.symm)) rfl hpos

/-- A patch that passes `index_check_size`. -/
theorem checked_bounded (h : checked size ind = some ind') (hpos : Positive ind.axes) :
    ind' = ind ∧ Bounded size ind := by
  obtain ⟨heq, hcheck⟩ := checked_eq_some h
  exact ⟨heq, (indexCheckSize_iff hpos).mp hcheck⟩

theorem positive_set {axes : List Axis} (hpos : Positive axes) {d : ℕ} {b : Axis}
    (hb : 0 < b.dim) : Positive (axes.set d b) :=
  fun a ha => (List.mem_or_eq_of_mem_set ha).elim (hpos a) fun h => h ▸ hb

/-- **No edit takes an index out of its storage.** -/
theorem Edit.bounded {e : Edit} (h : e.apply size ind = some ind') (hpos : Positive ind.axes)
    (hind : Bounded size ind) :
    ind'.st = ind.st ∧ ind'.unsized = ind.unsized ∧ Positive ind'.axes ∧ Bounded size ind' := by
  have hnarrows (hn : Narrows ind ind') : ind'.st = ind.st ∧ ind'.unsized = ind.unsized ∧
      Positive ind'.axes ∧ Bounded size ind' :=
    ⟨hn.st, hn.unsized, hn.positive, hn.bounded hind⟩
  cases e with
  | unfold d sz st => exact hnarrows (xindexUnfold_narrows h hpos)
  | diagonal d => exact hnarrows (xindexDiagonal_narrows h hpos)
  | narrow d sz st => exact hnarrows (xindexNarrow_narrows h hpos)
  | select d x => exact hnarrows (xindexSelect_narrows h hpos)
  | transpose table => exact hnarrows (xindexTranspose_narrows h hpos)
  | transpose2 d1 d2 => exact hnarrows (xindexTranspose2_narrows h hpos)
  | changeDim d x =>
      obtain ⟨a, ha, h⟩ := Option.bind_eq_some_iff.mp h
      split_ifs at h with hx
      have hset : Positive (ind.axes.set d { a with dim := x }) :=
        positive_set hpos (by simpa using hx)
      obtain ⟨rfl, hbounded⟩ := checked_bounded h hset
      exact ⟨rfl, rfl, hset, hbounded⟩
  | changeMod d x =>
      obtain ⟨a, ha, h⟩ := Option.bind_eq_some_iff.mp h
      have hset : Positive (ind.axes.set d { a with mod := x }) :=
        positive_set hpos (hpos a (List.mem_of_getElem? ha))
      obtain ⟨rfl, hbounded⟩ := checked_bounded h hset
      exact ⟨rfl, rfl, hset, hbounded⟩
  | changeOffset x =>
      obtain ⟨rfl, hbounded⟩ := checked_bounded h hpos
      exact ⟨rfl, rfl, hpos, hbounded⟩

/-! ## Subindexes -/

/-- No collapsed dimension starts at its very end. -/
def ProperRanges (ranges : List Range) (base : Index) : Prop :=
  ∀ p ∈ ranges.zip base.axes, p.1.dim = 0 → p.1.start < p.2.dim

theorem pieces_bounds {pieces : List (Range × Axis)} (hfits : ∀ p ∈ pieces, p.1.Fits p.2)
    (hproper : ∀ p ∈ pieces, p.1.dim = 0 → p.1.start < p.2.dim) :
    low (pieces.map Prod.snd) ≤ (pieces.map fun p => p.1.start * p.2.mod).sum +
        low ((pieces.filter fun p => 0 < p.1.dim).map fun p => ⟨p.1.dim, p.2.mod⟩) ∧
      (pieces.map fun p => p.1.start * p.2.mod).sum +
        high ((pieces.filter fun p => 0 < p.1.dim).map fun p => ⟨p.1.dim, p.2.mod⟩) ≤
          high (pieces.map Prod.snd) := by
  induction pieces with
  | nil => simp
  | cons p pieces ih =>
      obtain ⟨hp, hrest⟩ := List.forall_mem_cons.mp hfits
      obtain ⟨hp', hrest'⟩ := List.forall_mem_cons.mp hproper
      obtain ⟨hlow, hhigh⟩ := ih hrest hrest'
      obtain ⟨hdim, hstart, hle⟩ := hp
      simp only [List.map_cons, List.sum_cons, low_cons, high_cons, List.filter_cons,
        decide_eq_true_eq]
      split_ifs with hpos
      · obtain ⟨hlow', hhigh'⟩ := Axis.part_bounds hstart hpos hle
        simp only [List.map_cons, low_cons, high_cons]
        exact ⟨by omega, by omega⟩
      · have hlt := hp' (by omega)
        have hlow' := Axis.low_le hstart hlt
        have hhigh' := Axis.le_high hstart hlt
        exact ⟨by omega, by omega⟩

theorem indexFromIndex_eq_some {ranges : List Range} (h : indexFromIndex base ranges = some ind) :
    ind = subregion base ranges ∧ base.unsized = false ∧ ranges.length = base.axes.length ∧
      ∀ p ∈ ranges.zip base.axes, p.1.Fits p.2 := by
  unfold indexFromIndex at h
  split_ifs at h with hshape hfits
  push Not at hshape
  exact ⟨(Option.some.inj h).symm, Bool.eq_false_of_not_eq_true hshape.1, hshape.2, hfits⟩

theorem positive_subregion (base : Index) (ranges : List Range) :
    Positive (subregion base ranges).axes := by
  intro a ha
  obtain ⟨p, hp, rfl⟩ := List.mem_map.mp ha
  exact of_decide_eq_true (List.mem_filter.mp hp).2

/-- **A subindex stays where its base is, unless a collapsed dimension starts at its
end.** -/
theorem subregion_bounded {ranges : List Range} (hlen : ranges.length = base.axes.length)
    (hfits : ∀ p ∈ ranges.zip base.axes, p.1.Fits p.2) (hproper : ProperRanges ranges base)
    (hbase : Bounded size base) : Bounded size (subregion base ranges) := by
  obtain ⟨hlow, hhigh⟩ := pieces_bounds hfits hproper
  rw [List.map_snd_zip hlen.ge] at hlow hhigh
  obtain ⟨hmin, hmax⟩ := hbase
  refine ⟨?_, ?_⟩
  · simp only [subregion]
    omega
  · simp only [subregion]
    omega

/-! ## Dimensions -/

/-- The product of the dimensions that are given. -/
def given (dims : List ℤ) : ℤ := (dims.filter (· ≠ 0)).prod

/-- The dimensions, with the one that is not given computed for the size of a storage. -/
def filledDims (stSize : ℤ) (dims : List ℤ) : List ℤ :=
  dims.map fun d => if d = 0 then max stSize (given dims) / given dims else d

theorem given_cons (d : ℤ) (dims : List ℤ) :
    given (d :: dims) = if d = 0 then given dims else d * given dims := by
  unfold given
  split_ifs with hd
  · simp [hd]
  · simp [hd]

theorem totalSize_of_pos {ds : List ℤ} (h : ∀ d ∈ ds, 0 < d) (size : ℤ) :
    totalSize size false ds = some (size * ds.prod, false) := by
  induction ds generalizing size with
  | nil => simp [totalSize]
  | cons d ds ih =>
      obtain ⟨hd, hds⟩ := List.forall_mem_cons.mp h
      rw [totalSize, if_pos hd, ih hds, List.prod_cons, mul_assoc]

/-- A new storage is as large as the dimensions say. -/
theorem indexDimension_new {ds : List ℤ} (hlen : ds.length ≤ maxDims) (hpos : ∀ d ∈ ds, 0 < d) :
    indexDimension none (newIndex 0) ds = some (ds.prod, ⟨0, false, 0, rowMajor ds⟩) := by
  have hfill : (ds.map fun d => if d = 0 then ds.prod / ds.prod else d) = ds :=
    (List.map_congr_left fun d hd => if_neg (hpos d hd).ne').trans (List.map_id' ds)
  rw [indexDimension, if_neg (by simp [newIndex, hlen]), totalSize_of_pos hpos]
  simp only [one_mul]
  simp [enlarge, hfill, newIndex]

theorem totalSize_eq_some {dims : List ℤ} {size' : ℤ} {unkn unkn' : Bool}
    (h : totalSize size unkn dims = some (size', unkn')) :
    size' = size * given dims ∧ (∀ d ∈ dims, 0 ≤ d) ∧ (unkn' = true ↔ unkn = true ∨ 0 ∈ dims) ∧
      (unkn = true → 0 ∉ dims) ∧ dims.count 0 ≤ 1 := by
  induction dims generalizing size unkn with
  | nil =>
      cases h
      simp [given]
  | cons d dims ih =>
      unfold totalSize at h
      split_ifs at h with hpos hzero
      · obtain ⟨hsize, hnonneg, hunkn, hno, hcount⟩ := ih h
        have hne : d ≠ 0 := by omega
        rw [given_cons, if_neg hne]
        refine ⟨by rw [hsize, mul_assoc], ?_, ?_, ?_, ?_⟩
        · exact List.forall_mem_cons.mpr ⟨by omega, hnonneg⟩
        · rw [hunkn, List.mem_cons]
          simp [hne.symm]
        · intro hu
          simp [hne.symm, hno hu]
        · rwa [List.count_cons_of_ne hne]
      · obtain ⟨rfl, rfl⟩ := hzero
        obtain ⟨hsize, hnonneg, hunkn, hno, hcount⟩ := ih h
        have hcount' : dims.count 0 = 0 := List.count_eq_zero.mpr (hno rfl)
        rw [given_cons, if_pos rfl]
        refine ⟨hsize, ?_, ?_, by simp, ?_⟩
        · exact List.forall_mem_cons.mpr ⟨le_rfl, hnonneg⟩
        · simp [hunkn]
        · simp [hcount']

theorem prod_fill {dims : List ℤ} (hcount : dims.count 0 ≤ 1) (v : ℤ) :
    (dims.map fun d => if d = 0 then v else d).prod = given dims * if 0 ∈ dims then v else 1 := by
  induction dims with
  | nil => simp [given]
  | cons d dims ih =>
      rw [List.map_cons, List.prod_cons, given_cons]
      by_cases hd : d = 0
      · subst hd
        have hno : 0 ∉ dims := by
          rw [List.count_cons_self] at hcount
          exact List.count_eq_zero.mp (by omega)
        rw [ih (by rw [List.count_eq_zero.mpr hno]; omega)]
        simp [hno, mul_comm]
      · rw [ih (by rwa [List.count_cons_of_ne hd] at hcount)]
        simp [hd, Ne.symm hd, mul_assoc]

theorem given_pos {dims : List ℤ} (h : ∀ d ∈ dims, 0 ≤ d) : 0 < given dims := by
  refine List.prod_pos fun d hd => ?_
  obtain ⟨hmem, hne⟩ := List.mem_filter.mp hd
  have hle := h d hmem
  have hne : d ≠ 0 := of_decide_eq_true hne
  omega

/-- The number of elements of the dimensions that a storage is given. -/
theorem prod_filledDims {dims : List ℤ} (hnonneg : ∀ d ∈ dims, 0 ≤ d)
    (hcount : dims.count 0 ≤ 1) (stSize : ℤ) :
    (filledDims stSize dims).prod ≤ max stSize (given dims) ∧
      given dims ≤ (filledDims stSize dims).prod := by
  have hpos := given_pos hnonneg
  have hdiv : 1 ≤ max stSize (given dims) / given dims :=
    (Int.le_ediv_iff_mul_le hpos).mpr (by rw [one_mul]; exact le_max_right _ _)
  unfold filledDims
  rw [prod_fill hcount]
  split_ifs
  · exact ⟨Int.mul_ediv_self_le hpos.ne', le_mul_of_one_le_right hpos.le hdiv⟩
  · rw [mul_one]
    exact ⟨le_max_right _ _, le_rfl⟩

theorem filledDims_pos {dims : List ℤ} (hnonneg : ∀ d ∈ dims, 0 ≤ d) (stSize : ℤ) :
    ∀ d ∈ filledDims stSize dims, 0 < d := by
  have hpos := given_pos hnonneg
  have hdiv : 1 ≤ max stSize (given dims) / given dims :=
    (Int.le_ediv_iff_mul_le hpos).mpr (by rw [one_mul]; exact le_max_right _ _)
  intro d hd
  obtain ⟨c, hc, rfl⟩ := List.mem_map.mp hd
  have hle := hnonneg c hc
  split_ifs with hzero
  · omega
  · omega

/-- The elements that the dimensions ask for fit behind the offset. -/
def RoomFor (stSize : Option ℤ) (ind : Index) (dims : List ℤ) : Prop :=
  ind.offset = 0 ∨ ∃ size, stSize = some size ∧ ind.offset + (filledDims size dims).prod ≤ size

/-- **An index that is given dimensions is inside its storage if and only if there is room
for its elements behind the offset.** -/
theorem indexDimension_bounded {stSize : Option ℤ} {dims : List ℤ} {size' : ℤ}
    (h : indexDimension stSize ind dims = some (size', ind')) (hoffset : 0 ≤ ind.offset) :
    ind'.st = ind.st ∧ ind'.unsized = false ∧ Positive ind'.axes ∧
      (∀ size, stSize = some size → size ≤ size') ∧
      (Bounded size' ind' ↔ RoomFor stSize ind dims) := by
  unfold indexDimension at h
  split_ifs at h with hargs
  obtain ⟨⟨total, unkn⟩, htotal, h⟩ := Option.bind_eq_some_iff.mp h
  obtain ⟨size, hsize, h⟩ := Option.bind_eq_some_iff.mp h
  obtain ⟨rfl, hnonneg, hunkn, -, hcount⟩ := totalSize_eq_some htotal
  rw [one_mul] at hsize h
  have hge : given dims ≤ size ∧ (∀ n, stSize = some n → size = max n (given dims)) ∧
      (stSize = none → size = given dims) := by
    unfold enlarge at hsize
    split at hsize
    · split_ifs at hsize
      cases hsize
      exact ⟨le_rfl, fun _ h => (nomatch h), fun _ => rfl⟩
    · cases hsize
      exact ⟨le_max_right _ _, fun _ h => by cases h; rfl, fun h => (nomatch h)⟩
  obtain ⟨hge, hsome, hnone⟩ := hge
  have hdims : (dims.map fun d => if d = 0 then size / given dims else d) =
      filledDims size dims := by
    rw [filledDims, max_eq_left hge]
  have h : some (size, { ind with
      unsized := false
      axes := rowMajor (dims.map fun d => if d = 0 then size / given dims else d) }) =
        some (size', ind') := h
  rw [hdims] at h
  cases h
  have hpos := filledDims_pos hnonneg size'
  obtain ⟨hle, hle'⟩ := prod_filledDims hnonneg hcount size'
  rw [max_eq_left hge] at hle
  refine ⟨rfl, rfl, positive_rowMajor hpos, ?_, ?_⟩
  · rintro n rfl
    rw [hsome n rfl]
    exact le_max_left _ _
  · have hbounded : Bounded size' ⟨ind.st, false, ind.offset, rowMajor (filledDims size' dims)⟩ ↔
        ind.offset + (filledDims size' dims).prod ≤ size' := by
      unfold Bounded
      rw [low_rowMajor hpos, high_rowMajor hpos]
      simp only
      omega
    rw [hbounded]
    unfold RoomFor
    rcases stSize with _ | n
    · have hsize := hnone rfl
      simp only [reduceCtorEq, false_and, exists_false, or_false]
      omega
    · have hsize := hsome n rfl
      have hfilled : filledDims n dims = filledDims size' dims := by
        unfold filledDims
        rw [hsize, max_assoc, max_self]
      simp only [Option.some.injEq, exists_eq_left', hfilled]
      rcases le_total n (given dims) with hn | hn
      · rw [max_eq_right hn] at hsize
        omega
      · rw [max_eq_left hn] at hsize
        omega

/-! ## Runs -/

/-- An index that has dimensions has a storage with a size, and one that has none keeps an
offset. -/
structure Shaped (s : State) (ind : Index) : Prop where
  offset : ind.unsized = true → 0 ≤ ind.offset
  positive : ind.unsized = false → Positive ind.axes
  storage : ind.unsized = false → ∃ size, s.storages[ind.st]? = some (some size)

/-- Every element of the index is in the storage. -/
def InStorage (s : State) (ind : Index) : Prop :=
  ind.unsized = false → ∃ size, s.storages[ind.st]? = some (some size) ∧
    ∀ ks, InRange ks ind.axes → 0 ≤ ind.offset + displacement ks ind.axes ∧
      ind.offset + displacement ks ind.axes < size

/-- Every element of every index is in its storage. -/
def Inside (s : State) : Prop := ∀ ind ∈ s.indexes, InStorage s ind

/-- The storages only become larger. -/
def Grown (s t : State) : Prop :=
  ∀ (k : ℕ) (size : ℤ), s.storages[k]? = some (some size) →
    ∃ size', t.storages[k]? = some (some size') ∧ size ≤ size'

theorem Grown.refl (s : State) : Grown s s := fun _ size h => ⟨size, h, le_rfl⟩

theorem inStorage_iff (hpos : Positive ind.axes) (hsized : ind.unsized = false)
    (hsize : s.storages[ind.st]? = some (some size)) : InStorage s ind ↔ Bounded size ind := by
  unfold InStorage Bounded
  simp only [hsized, forall_const, hsize, Option.some.injEq, exists_eq_left',
    forall_inRange_iff hpos]

theorem InStorage.grown (h : InStorage s ind) {t : State} (hgrown : Grown s t) :
    InStorage t ind := by
  intro hsized
  obtain ⟨size, hsize, hall⟩ := h hsized
  obtain ⟨size', hsize', hle⟩ := hgrown _ _ hsize
  exact ⟨size', hsize', fun ks hks => ⟨(hall ks hks).1, (hall ks hks).2.trans_le hle⟩⟩

theorem Shaped.grown (h : Shaped s ind) {t : State} (hgrown : Grown s t) : Shaped t ind := by
  refine ⟨h.offset, h.positive, fun hsized => ?_⟩
  obtain ⟨size, hsize⟩ := h.storage hsized
  obtain ⟨size', hsize', -⟩ := hgrown _ _ hsize
  exact ⟨size', hsize'⟩

/-- A step that makes or changes one index. -/
theorem inside_iff {t : State} {ok : Prop} (hshaped : ∀ x ∈ s.indexes, Shaped s x)
    (hinside : Inside s) (hgrown : Grown s t) (hmem : ind ∈ t.indexes)
    (hothers : ∀ x ∈ t.indexes, x ∈ s.indexes ∨ x = ind) (hind : Shaped t ind)
    (hok : InStorage t ind ↔ ok) :
    (∀ x ∈ t.indexes, Shaped t x) ∧ (Inside t ↔ ok) := by
  refine ⟨fun x hx => ?_, ?_⟩
  · rcases hothers x hx with hold | rfl
    · exact (hshaped x hold).grown hgrown
    · exact hind
  · refine ⟨fun h => hok.mp (h ind hmem), fun h x hx => ?_⟩
    rcases hothers x hx with hold | rfl
    · exact (hinside x hold).grown hgrown
    · exact hok.mpr h

theorem push_iff {t : State} {ok : Prop} (hshaped : ∀ x ∈ s.indexes, Shaped s x)
    (hinside : Inside s) (hgrown : Grown s t) (hindexes : t.indexes = s.indexes)
    (hind : Shaped t ind) (hok : InStorage t ind ↔ ok) :
    (∀ x ∈ (t.push ind).indexes, Shaped (t.push ind) x) ∧ (Inside (t.push ind) ↔ ok) := by
  refine inside_iff hshaped hinside hgrown ?_ ?_ ⟨hind.offset, hind.positive, hind.storage⟩ hok
  · exact List.mem_append_right _ (List.mem_singleton_self ind)
  · intro x hx
    rw [← hindexes]
    simpa [State.push] using hx

theorem set_iff {t : State} {ok : Prop} {i : ℕ} (hshaped : ∀ x ∈ s.indexes, Shaped s x)
    (hinside : Inside s) (hgrown : Grown s t) (hindexes : t.indexes = s.indexes)
    (hi : s.indexes[i]? = some base) (hind : Shaped t ind) (hok : InStorage t ind ↔ ok) :
    (∀ x ∈ (t.set i ind).indexes, Shaped (t.set i ind) x) ∧ (Inside (t.set i ind) ↔ ok) := by
  obtain ⟨hlt, -⟩ := List.getElem?_eq_some_iff.mp hi
  refine inside_iff hshaped hinside hgrown ?_ ?_ ⟨hind.offset, hind.positive, hind.storage⟩ hok
  · exact List.mem_set (hindexes ▸ hlt) ind
  · intro x hx
    rw [← hindexes]
    exact List.mem_or_eq_of_mem_set hx

theorem sized_eq_some {i : ℕ} (h : s.sized i = some ind) :
    s.indexes[i]? = some ind ∧ ind.unsized = false := by
  obtain ⟨x, hx, h⟩ := Option.bind_eq_some_iff.mp h
  split_ifs at h with hsized
  cases h
  exact ⟨hx, Bool.eq_false_of_not_eq_true hsized⟩

/-- `index_dimension` on the storage of an index. -/
theorem dimension_eq_some {t : State} {dims : List ℤ} (h : s.dimension ind dims = some (t, ind'))
    (hoffset : 0 ≤ ind.offset) : Grown s t ∧ t.indexes = s.indexes ∧ Shaped t ind' ∧
      (InStorage t ind' ↔ RoomFor s.storages[ind.st]?.join ind dims) := by
  obtain ⟨stSize, hst, h⟩ := Option.bind_eq_some_iff.mp h
  obtain ⟨⟨size', x⟩, hdim, h⟩ := Option.bind_eq_some_iff.mp h
  cases h
  obtain ⟨hst', hsized, hpos, hle, hiff⟩ := indexDimension_bounded hdim hoffset
  obtain ⟨hlt, -⟩ := List.getElem?_eq_some_iff.mp hst
  have hsize : (s.storages.set ind.st (some size'))[ind.st]? = some (some size') :=
    List.getElem?_set_self hlt
  have hsize' : (s.storages.set ind.st (some size'))[ind'.st]? = some (some size') := by
    rw [hst', hsize]
  refine ⟨?_, rfl, ⟨?_, fun _ => hpos, fun _ => ⟨size', hsize'⟩⟩, ?_⟩
  · intro k size hk
    by_cases hkst : ind.st = k
    · subst hkst
      refine ⟨size', hsize, hle size ?_⟩
      exact Option.some.inj (hst.symm.trans hk)
    · exact ⟨size, (List.getElem?_set_ne hkst).trans hk, le_rfl⟩
  · intro h
    exact absurd (hsized.symm.trans h) (by decide)
  · rw [inStorage_iff hpos hsized hsize', hiff, hst]
    rfl

/-- The region of a subindex is inside the storage of its base. -/
def RegionFits (s : State) (base : Index) (ranges : List Range) : Prop :=
  ProperRanges ranges base ∨ ∃ size, s.storages[base.st]? = some (some size) ∧
    indexCheckSize size (subregion base ranges) = false

/-- No collapsed dimension starts at its very end, unless the region is in the storage
nevertheless, and there is room behind the offset of an index that is given dimensions. -/
def Operation.Fits (s : State) : Operation → Prop
  | .newIndexOnIndex i dims start => ∀ (base : Index), s.indexes[i]? = some base →
      RegionFits s base (rangesOf dims start)
  | .subindex i subscripts => ∀ (base : Index), s.indexes[i]? = some base →
      RegionFits s base (subscriptRanges subscripts base)
  | .redim i dims => ∀ (ind : Index), s.indexes[i]? = some ind →
      RoomFor s.storages[ind.st]?.join ind dims
  | _ => True

/-- A subindex of an index that is inside its storage. -/
theorem subindex_iff {i : ℕ} {ranges : List Range} (hshaped : ∀ x ∈ s.indexes, Shaped s x)
    (hinside : Inside s) (hbase : s.indexes[i]? = some base)
    (h : indexFromIndex base ranges = some ind) :
    (∀ x ∈ (s.push ind).indexes, Shaped (s.push ind) x) ∧
      (Inside (s.push ind) ↔ RegionFits s base ranges) := by
  obtain ⟨rfl, hsized, hlen, hfits⟩ := indexFromIndex_eq_some h
  have hmem := List.mem_of_getElem? hbase
  obtain ⟨size, hsize⟩ := (hshaped base hmem).storage hsized
  have hpos := positive_subregion base ranges
  have hbounded : Bounded size base :=
    (inStorage_iff ((hshaped base hmem).positive hsized) hsized hsize).mp (hinside base hmem)
  have hsize' : s.storages[(subregion base ranges).st]? = some (some size) := hsize
  refine push_iff hshaped hinside (Grown.refl s) rfl ⟨?_, fun _ => hpos, fun _ => ⟨size, hsize⟩⟩ ?_
  · intro h
    exact absurd (hsized.symm.trans h) (by decide)
  · rw [inStorage_iff hpos hsized hsize']
    refine ⟨fun h => Or.inr ⟨size, hsize, (indexCheckSize_iff hpos).mpr h⟩, ?_⟩
    rintro (hproper | ⟨size', hsize', hcheck⟩)
    · exact subregion_bounded hlen hfits hproper hbounded
    · cases hsize.symm.trans hsize'
      exact (indexCheckSize_iff hpos).mp hcheck

/-- The first element of an index is in the storage, and an index without dimensions has
kept its offset. -/
theorem offset_nonneg (hshaped : ∀ x ∈ s.indexes, Shaped s x) (hinside : Inside s)
    (hind : ind ∈ s.indexes) : 0 ≤ ind.offset := by
  cases hsized : ind.unsized with
  | true => exact (hshaped ind hind).offset hsized
  | false =>
      obtain ⟨size, hsize⟩ := (hshaped ind hind).storage hsized
      have hpos := (hshaped ind hind).positive hsized
      have hbounded := (inStorage_iff hpos hsized hsize).mp (hinside ind hind)
      have hlow := low_nonpos ind.axes
      have hmin := hbounded.1
      omega

/-- A new index on a storage, whose offset is `0`. -/
theorem newIndex_inside {t : State} {st : ℕ} {dims : List ℤ} (hshaped : ∀ x ∈ s.indexes, Shaped s x)
    (hinside : Inside s) (hgrown : Grown s s') (hindexes : s'.indexes = s.indexes)
    (h : s'.dimension (newIndex st) dims = some (t, ind)) :
    (∀ x ∈ (t.push ind).indexes, Shaped (t.push ind) x) ∧ (Inside (t.push ind) ↔ True) := by
  obtain ⟨hgrown', hindexes', hind, hok⟩ := dimension_eq_some h le_rfl
  have hgrown'' : Grown s t := by
    intro k size hk
    obtain ⟨size1, h1, hle1⟩ := hgrown k size hk
    obtain ⟨size2, h2, hle2⟩ := hgrown' k size1 h1
    exact ⟨size2, h2, hle1.trans hle2⟩
  exact push_iff hshaped hinside hgrown'' (hindexes'.trans hindexes) hind
    (hok.trans (iff_true_intro (Or.inl rfl)))

/-- **What one operation does.** -/
theorem Operation.step_iff {op : Operation} (hshaped : ∀ x ∈ s.indexes, Shaped s x)
    (hinside : Inside s) (h : op.step s = some s') :
    (∀ x ∈ s'.indexes, Shaped s' x) ∧ (Inside s' ↔ op.Fits s) := by
  cases op with
  | matrix dims =>
      obtain ⟨⟨t, ind⟩, hdim, h⟩ := Option.bind_eq_some_iff.mp h
      cases h
      have hgrown : Grown s { s with storages := s.storages ++ [none] } := by
        intro k size hk
        obtain ⟨hlt, -⟩ := List.getElem?_eq_some_iff.mp hk
        exact ⟨size, (List.getElem?_append_left hlt).trans hk, le_rfl⟩
      exact newIndex_inside hshaped hinside hgrown rfl hdim
  | newIndexOnStorage st dims =>
      obtain ⟨⟨t, ind⟩, hdim, h⟩ := Option.bind_eq_some_iff.mp h
      cases h
      exact newIndex_inside hshaped hinside (Grown.refl s) rfl hdim
  | newIndexOnIndex i dims start =>
      obtain ⟨base, hbase, h⟩ := Option.bind_eq_some_iff.mp h
      split_ifs at h
      obtain ⟨ind, hind, h⟩ := Option.bind_eq_some_iff.mp h
      cases h
      obtain ⟨hshaped', hiff⟩ := subindex_iff hshaped hinside hbase hind
      refine ⟨hshaped', hiff.trans ⟨fun hfits x hx => ?_, fun hfits => hfits base hbase⟩⟩
      cases hbase.symm.trans hx
      exact hfits
  | subindex i subscripts =>
      obtain ⟨base, hbase, h⟩ := Option.bind_eq_some_iff.mp h
      obtain ⟨ind, hind, h⟩ := Option.bind_eq_some_iff.mp h
      cases h
      obtain ⟨hbase, -⟩ := sized_eq_some hbase
      unfold xsubindex at hind
      split_ifs at hind
      obtain ⟨hshaped', hiff⟩ := subindex_iff hshaped hinside hbase hind
      refine ⟨hshaped', hiff.trans ⟨fun hfits x hx => ?_, fun hfits => hfits base hbase⟩⟩
      cases hbase.symm.trans hx
      exact hfits
  | edit i e =>
      obtain ⟨base, hbase, h⟩ := Option.bind_eq_some_iff.mp h
      obtain ⟨size, hst, h⟩ := Option.bind_eq_some_iff.mp h
      obtain ⟨ind, hind, h⟩ := Option.bind_eq_some_iff.mp h
      cases h
      have hst := Option.join_eq_some_iff.mp hst
      obtain ⟨hbase, hsized⟩ := sized_eq_some hbase
      have hmem := List.mem_of_getElem? hbase
      have hpos := (hshaped base hmem).positive hsized
      have hbounded := (inStorage_iff hpos hsized hst).mp (hinside base hmem)
      obtain ⟨hst', hsized', hpos', hbounded'⟩ := Edit.bounded hind hpos hbounded
      rw [hsized] at hsized'
      rw [← hst'] at hst
      refine set_iff hshaped hinside (Grown.refl s) rfl hbase ?_ (iff_true_intro ?_)
      · refine ⟨fun h => ?_, fun _ => hpos', fun _ => ⟨size, hst⟩⟩
        exact absurd (hsized'.symm.trans h) (by decide)
      · exact (inStorage_iff hpos' hsized' hst).mpr hbounded'
  | clone i =>
      obtain ⟨ind, hind, h⟩ := Option.bind_eq_some_iff.mp h
      cases h
      have hmem := List.mem_of_getElem? (sized_eq_some hind).1
      exact push_iff hshaped hinside (Grown.refl s) rfl (hshaped ind hmem)
        (iff_true_intro (hinside ind hmem))
  | transclone i table =>
      obtain ⟨base, hbase, h⟩ := Option.bind_eq_some_iff.mp h
      obtain ⟨ind, hind, h⟩ := Option.bind_eq_some_iff.mp h
      cases h
      obtain ⟨hbase, hsized⟩ := sized_eq_some hbase
      have hmem := List.mem_of_getElem? hbase
      have hpos := (hshaped base hmem).positive hsized
      obtain ⟨size, hst⟩ := (hshaped base hmem).storage hsized
      have hnarrows := xindexTranspose_narrows hind hpos
      have hsized' : ind.unsized = false := hnarrows.unsized.trans hsized
      have hbounded := hnarrows.bounded ((inStorage_iff hpos hsized hst).mp (hinside base hmem))
      rw [← hnarrows.st] at hst
      refine push_iff hshaped hinside (Grown.refl s) rfl ?_ (iff_true_intro ?_)
      · refine ⟨fun h => ?_, fun _ => hnarrows.positive, fun _ => ⟨size, hst⟩⟩
        exact absurd (hsized'.symm.trans h) (by decide)
      · exact (inStorage_iff hnarrows.positive hsized' hst).mpr hbounded
  | undim i =>
      obtain ⟨ind, hind, h⟩ := Option.bind_eq_some_iff.mp h
      cases h
      have hoffset := offset_nonneg hshaped hinside (List.mem_of_getElem? hind)
      refine set_iff hshaped hinside (Grown.refl s) rfl hind ?_ (iff_true_intro ?_)
      · exact ⟨fun _ => hoffset, fun h => (nomatch h), fun h => (nomatch h)⟩
      · exact fun h => nomatch h
  | redim i dims =>
      obtain ⟨ind, hind, h⟩ := Option.bind_eq_some_iff.mp h
      obtain ⟨⟨t, ind'⟩, hdim, h⟩ := Option.bind_eq_some_iff.mp h
      cases h
      have hoffset := offset_nonneg hshaped hinside (List.mem_of_getElem? hind)
      have hsame : ∀ b : Bool, (if b then ind else indexUndimension ind).offset = ind.offset ∧
          (if b then ind else indexUndimension ind).st = ind.st := by
        rintro (_ | _) <;> exact ⟨rfl, rfl⟩
      obtain ⟨hoffset', hst'⟩ := hsame ind.unsized
      obtain ⟨hgrown, hindexes, hshape, hok⟩ := dimension_eq_some hdim (hoffset'.symm ▸ hoffset)
      refine set_iff hshaped hinside hgrown hindexes hind hshape ?_
      rw [hok]
      unfold RoomFor
      rw [hoffset', hst']
      refine ⟨fun hroom x hx => ?_, fun hfits => hfits ind hind⟩
      cases hind.symm.trans hx
      exact hroom

end Lush.Arrays
