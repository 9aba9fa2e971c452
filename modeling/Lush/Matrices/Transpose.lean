import Lush.Matrices.Dense

/-!
# The transposed matrix

`transpose` counts the entries of each column, adds the counts up to row pointers, and puts
each entry at the next place of its column.  The rows that are filled are the columns
(`Csr.row_transpose`), and the columns of the columns are the rows; so `transpose` is an
involution on the arrays.  With this all matrices that can be made denote what they should.
-/

namespace Lush.Sparse

open SparseRows Spreading

variable {K : Type} [Field K] {csr csr' : SparseCSR K} {i j n : ℕ}

/-! ## All entries -/

/-- The entries of all rows. -/
def SparseCSR.entries (csr : SparseCSR K) : List (ℕ × K) := Spreading.segment csr.entry 0 csr.nnz

omit [Field K] in
theorem Csr.flatMap_row (h : Csr csr) : (List.range csr.nrows).flatMap csr.row = csr.entries := by
  obtain ⟨hseg, -⟩ := flatMap_segment (a := csr.entry) h.mono
  rw [h.first, h.last] at hseg
  exact hseg

omit [Field K] in
theorem Csr.rowPtr_le (h : Csr csr) (hi : i ≤ csr.nrows) : csr.rowPtr i ≤ csr.nnz := by
  induction hi using Nat.decreasingInduction with
  | self => exact h.last.le
  | of_succ i hi ih => exact (h.mono i hi).trans ih

omit [Field K] in
theorem Csr.lt_of_mem (h : Csr csr) {a : ℕ × K} (ha : a ∈ csr.entries) : a.1 < csr.ncols := by
  rw [← h.flatMap_row] at ha
  obtain ⟨i, hi, ha⟩ := List.mem_flatMap.mp ha
  exact (h.row i (List.mem_range.mp hi)).lt a ha

omit [Field K] in
theorem Csr.rowPtr_succ (h : Csr csr) (hi : i < csr.nrows) :
    csr.rowPtr (i + 1) = csr.rowPtr i + (csr.row i).length := by
  have hle := h.mono i hi
  rw [SparseCSR.row, length_segment]
  omega

/-- The same matrix in the same arrays, up to what is not used of them. -/
structure Same (csr csr' : SparseCSR K) : Prop where
  nrows : csr.nrows = csr'.nrows
  ncols : csr.ncols = csr'.ncols
  nnz : csr.nnz = csr'.nnz
  rowPtr : ∀ i ≤ csr.nrows, csr.rowPtr i = csr'.rowPtr i
  entry : ∀ k < csr.nnz, csr.colIdx k = csr'.colIdx k ∧ csr.values k = csr'.values k

omit [Field K] in
/-- The rows determine the arrays. -/
theorem Csr.same (h : Csr csr) (h' : Csr csr') (hnrows : csr.nrows = csr'.nrows)
    (hncols : csr.ncols = csr'.ncols) (hrow : ∀ i < csr.nrows, csr.row i = csr'.row i) :
    Same csr csr' := by
  have hentries : csr.entries = csr'.entries := by
    rw [← h.flatMap_row, ← h'.flatMap_row, ← hnrows]
    exact List.flatMap_congr fun i hi => hrow i (List.mem_range.mp hi)
  have hnnz : csr.nnz = csr'.nnz := by
    have hlen := congrArg List.length hentries
    rwa [SparseCSR.entries, SparseCSR.entries, length_segment, length_segment] at hlen
  refine ⟨hnrows, hncols, hnnz, fun i hi => ?_, fun k hk => ?_⟩
  · induction i with
    | zero => rw [h.first, h'.first]
    | succ i ih => rw [h.rowPtr_succ hi, h'.rowPtr_succ (hnrows ▸ hi), ih (by omega), hrow i hi]
  · rw [SparseCSR.entries, SparseCSR.entries, ← hnnz] at hentries
    have hentry := segment_inj hentries k.zero_le hk
    exact ⟨congrArg Prod.fst hentry, congrArg Prod.snd hentry⟩

/-! ## Scaling -/

/-- The values of a row are multiplied. -/
theorem Csr.row_scale (h : Csr csr) (alpha : K) (hi : i < csr.nrows) :
    (csr.scale alpha).row i = (csr.row i).map fun a => (a.1, a.2 * alpha) := by
  have hle : csr.rowPtr (i + 1) ≤ csr.nnz := h.rowPtr_le hi
  have hmono := h.mono i hi
  rw [SparseCSR.scale]
  split_ifs with hnnz
  · rw [SparseCSR.row, SparseCSR.row, Spreading.segment, Spreading.segment, List.map_map]
    refine List.map_congr_left fun k hk => ?_
    have hlt : k < csr.rowPtr i + (csr.rowPtr (i + 1) - csr.rowPtr i) :=
      (List.mem_range'_1.mp hk).2
    have hk : k < csr.nnz := by omega
    have hvalue := loop_modify csr.nnz (fun _ v => v * alpha) csr.values k
    rw [if_pos hk] at hvalue
    exact congrArg (Prod.mk (csr.colIdx k)) hvalue
  · have hnil : csr.row i = [] := by
      refine List.length_eq_zero_iff.mp ?_
      rw [SparseCSR.row, length_segment]
      omega
    rw [hnil, List.map_nil]

theorem dims_scale (csr : SparseCSR K) (alpha : K) :
    (csr.scale alpha).nrows = csr.nrows ∧ (csr.scale alpha).ncols = csr.ncols ∧
      (csr.scale alpha).nnz = csr.nnz ∧ (csr.scale alpha).rowPtr = csr.rowPtr := by
  rw [SparseCSR.scale]
  split_ifs <;> exact ⟨rfl, rfl, rfl, rfl⟩

theorem Csr.scale (h : Csr csr) (alpha : K) : Csr (csr.scale alpha) := by
  obtain ⟨hnrows, hncols, hnnz, hrowPtr⟩ := dims_scale csr alpha
  refine ⟨?_, ?_, ?_, fun i hi => ?_⟩
  · rw [hrowPtr]
    exact h.first
  · rw [hrowPtr, hnrows, hnnz]
    exact h.last
  · rw [hrowPtr, hnrows]
    exact h.mono
  · rw [hnrows] at hi
    obtain ⟨hascending, hlt⟩ := h.row i hi
    rw [h.row_scale alpha hi, hncols]
    refine ⟨by rwa [List.pairwise_map], fun a ha => ?_⟩
    obtain ⟨b, hb, rfl⟩ := List.mem_map.mp ha
    exact hlt b hb

theorem Csr.at_scale (h : Csr csr) (alpha : K) (hi : i < csr.nrows) (j : ℕ) :
    (csr.scale alpha).at i j = csr.at i j * alpha := by
  rw [SparseCSR.at, SparseCSR.at, h.row_scale alpha hi]
  induction csr.row i with
  | nil => rw [List.map_nil, lookup_nil, zero_mul]
  | cons a l ih => rw [List.map_cons, lookup_cons, lookup_cons, ih, add_mul, ite_mul, zero_mul]

/-! ## Transposing -/

/-- The number of entries in the columns before `j`. -/
def SparseCSR.before (csr : SparseCSR K) (j : ℕ) : ℕ := csr.entries.countP (·.1 < j)

omit [Field K] in
theorem SparseCSR.transposedRowPtr_eq (csr : SparseCSR K) (hj : j ≤ csr.ncols) :
    csr.transposedRowPtr j = csr.before j := by
  have hcounts : ∀ d, loop 0 csr.nnz (fun tRp k =>
      Function.update tRp (csr.colIdx k + 1) (tRp (csr.colIdx k + 1) + 1)) (fun _ => 0) d =
        csr.entries.countP (·.1 + 1 = d) := by
    intro d
    have htally := @foldl_tally (ℕ × K) (fun a => a.1 + 1) csr.entries (fun _ => 0) d
    rw [SparseCSR.entries, Spreading.segment, List.foldl_map, Nat.zero_add] at htally
    exact htally
  calc csr.transposedRowPtr j
      = ∑ d ∈ Finset.range (j + 1), csr.entries.countP (·.1 + 1 = d) := by
        rw [SparseCSR.transposedRowPtr, loop, Nat.add_sub_cancel, foldl_accumulate, if_pos hj]
        exact Finset.sum_congr rfl fun d _ => hcounts d
    _ = csr.before j := sum_countP_succ csr.entries j

/-- The entries with their rows. -/
def SparseCSR.triplets (csr : SparseCSR K) : List (ℕ × ℕ × K) :=
  (List.range csr.nrows).flatMap fun i => (csr.row i).map fun a => (i, a)

/-- The variables of the loop over the entries, as places of triplets. -/
def Cursor.ofTriplets (s : (ℕ → ℕ) × (ℕ → ℕ × ℕ × K)) : Cursor K :=
  ⟨s.1, fun k => (s.2 k).1, fun k => (s.2 k).2.2⟩

omit [Field K] in
theorem fillTransposed_ofTriplets (csr : SparseCSR K) (i k : ℕ)
    (s : (ℕ → ℕ) × (ℕ → ℕ × ℕ × K)) :
    csr.fillTransposed i (Cursor.ofTriplets s) k =
      Cursor.ofTriplets (spread (fun t => t.2.1) s (i, csr.entry k)) := by
  simp only [SparseCSR.fillTransposed, Cursor.ofTriplets, spread, SparseCSR.entry,
    Cursor.mk.injEq, true_and]
  refine ⟨?_, ?_⟩ <;> funext k' <;> simp only [Function.update_apply] <;> split_ifs <;> rfl

omit [Field K] in
/-- The loop over the rows is a loop over the triplets. -/
theorem loop_fillTransposed (csr : SparseCSR K) (n : ℕ) (s : (ℕ → ℕ) × (ℕ → ℕ × ℕ × K)) :
    loop 0 n (fun s i => loop (csr.rowPtr i) (csr.rowPtr (i + 1)) (csr.fillTransposed i) s)
        (Cursor.ofTriplets s) =
      Cursor.ofTriplets (((List.range n).flatMap fun i => (csr.row i).map fun a => (i, a)).foldl
        (spread fun t => t.2.1) s) := by
  have hrow : ∀ (i : ℕ) (l : List ℕ) s, l.foldl (csr.fillTransposed i) (Cursor.ofTriplets s) =
      Cursor.ofTriplets ((l.map fun k => (i, csr.entry k)).foldl (spread fun t => t.2.1) s) := by
    intro i l s
    induction l generalizing s with
    | nil => rfl
    | cons k l ih => rw [List.foldl_cons, fillTransposed_ofTriplets, ih, List.map_cons,
        List.foldl_cons]
  induction n with
  | zero => rfl
  | succ n ih =>
      rw [loop_succ, ih, List.range_succ, List.flatMap_append, List.foldl_append,
        List.flatMap_singleton, SparseCSR.row, Spreading.segment, List.map_map]
      exact hrow n _ _

omit [Field K] in
theorem Csr.map_triplets (h : Csr csr) : csr.triplets.map Prod.snd = csr.entries := by
  rw [← h.flatMap_row, SparseCSR.triplets, List.map_flatMap]
  simp only [List.map_map]
  exact List.flatMap_congr fun i _ => List.map_id _

omit [Field K] in
theorem SparseCSR.filter_triplets (csr : SparseCSR K) (j : ℕ) :
    (csr.triplets.filter (·.2.1 = j)).map (fun t => (t.1, t.2.2)) =
      column csr.row csr.nrows j := by
  rw [SparseCSR.triplets, List.filter_flatMap, List.map_flatMap, column]
  refine List.flatMap_congr fun i _ => ?_
  rw [List.filter_map, List.map_map]
  rfl

omit [Field K] in
/-- Without entries all columns are empty. -/
theorem Csr.column_eq_nil (h : Csr csr) (hnnz : csr.nnz = 0) (j : ℕ) :
    column csr.row csr.nrows j = [] := by
  have hnil : csr.triplets = [] := by
    rw [← List.length_eq_zero_iff, ← List.length_map Prod.snd, h.map_triplets,
      SparseCSR.entries, length_segment, hnnz]
  rw [← csr.filter_triplets, hnil]
  rfl

theorem dims_transpose (csr : SparseCSR K) :
    csr.transpose.nrows = csr.ncols ∧ csr.transpose.ncols = csr.nrows ∧
      csr.transpose.nnz = csr.nnz := by
  rw [SparseCSR.transpose]
  split_ifs <;> exact ⟨rfl, rfl, rfl⟩

theorem SparseCSR.rowPtr_transpose (csr : SparseCSR K) (hj : j ≤ csr.ncols) :
    csr.transpose.rowPtr j = csr.before j := by
  rw [SparseCSR.transpose]
  split_ifs with hnnz
  · exact csr.transposedRowPtr_eq hj
  · have hnil : csr.entries = [] := by
      rw [← List.length_eq_zero_iff, SparseCSR.entries, length_segment]
      omega
    rw [SparseCSR.before, hnil]
    rfl

/-- The places of the next entries, before the loop. -/
def SparseCSR.cursor (csr : SparseCSR K) : ℕ → ℕ :=
  loop 0 csr.ncols (fun cursor j => Function.update cursor j (csr.transposedRowPtr j)) fun _ => 0

/-- The triplets at their places. -/
def SparseCSR.placed (csr : SparseCSR K) : ℕ → ℕ × ℕ × K :=
  (csr.triplets.foldl (spread fun t => t.2.1) (csr.cursor, fun _ => (0, 0, 0))).2

theorem SparseCSR.entry_transpose (csr : SparseCSR K) (hnnz : csr.nnz > 0) :
    csr.transpose.entry = fun k => ((csr.placed k).1, (csr.placed k).2.2) := by
  have hloop := loop_fillTransposed csr csr.nrows (csr.cursor, fun _ => (0, 0, 0))
  funext k
  rw [SparseCSR.entry, SparseCSR.transpose, if_pos hnnz]
  exact congrArg (fun s : Cursor K => (s.tCi k, s.tV k)) hloop

omit [Field K] in
theorem Csr.countP_triplets (h : Csr csr) (p : ℕ → Bool) :
    csr.triplets.countP (fun t => p t.2.1) = csr.entries.countP fun a => p a.1 := by
  rw [← h.map_triplets, List.countP_map]
  rfl

omit [Field K] in
theorem Csr.cursor_eq (h : Csr csr) (hj : j < csr.ncols) :
    csr.cursor j = csr.triplets.countP (·.2.1 < j) := by
  have hmodify := loop_modify csr.ncols (fun j _ => csr.transposedRowPtr j) (fun _ => 0) j
  rw [if_pos hj, csr.transposedRowPtr_eq hj.le] at hmodify
  exact hmodify.trans (h.countP_triplets (· < j)).symm

/-- The part of a column has its entries, with their rows. -/
theorem Csr.segment_placed (h : Csr csr) (hj : j < csr.ncols) :
    Spreading.segment csr.placed (csr.before j) (csr.before (j + 1)) =
      csr.triplets.filter (·.2.1 = j) := by
  have hcode : ∀ t ∈ csr.triplets, t.2.1 < csr.ncols := fun t ht =>
    h.lt_of_mem (h.map_triplets ▸ List.mem_map_of_mem ht)
  obtain ⟨hspread, -⟩ := foldl_spread (fun _ => (0, 0, 0))
    (apart_starts hcode fun c hc => h.cursor_eq hc)
  have hstart : csr.before j = csr.cursor j :=
    (h.countP_triplets (· < j)).symm.trans (h.cursor_eq hj).symm
  have hstop : csr.before (j + 1) = csr.cursor j + csr.triplets.countP (·.2.1 = j) := by
    rw [h.cursor_eq hj, ← countP_lt_succ]
    exact (h.countP_triplets (· < j + 1)).symm
  rw [hstart, hstop]
  exact hspread j

/-- **The rows of the transposed matrix are the columns.** -/
theorem Csr.row_transpose (h : Csr csr) (hj : j < csr.ncols) :
    csr.transpose.row j = column csr.row csr.nrows j := by
  have hptr : csr.transpose.rowPtr (j + 1) = csr.before (j + 1) := csr.rowPtr_transpose hj
  rw [SparseCSR.row, csr.rowPtr_transpose hj.le, hptr]
  by_cases hnnz : csr.nnz > 0
  · rw [csr.entry_transpose hnnz, ← csr.filter_triplets, ← h.segment_placed hj,
      Spreading.segment, Spreading.segment, List.map_map]
    rfl
  · have hzero : csr.nnz = 0 := by omega
    rw [h.column_eq_nil hzero, ← List.length_eq_zero_iff, length_segment]
    have hle : csr.before (j + 1) ≤ csr.entries.length := List.countP_le_length
    rw [SparseCSR.entries, length_segment, hzero] at hle
    omega

theorem Csr.transpose (h : Csr csr) : Csr csr.transpose := by
  obtain ⟨hnrows, hncols, hnnz⟩ := dims_transpose csr
  refine ⟨?_, ?_, fun j hj => ?_, fun j hj => ?_⟩
  · rw [csr.rowPtr_transpose csr.ncols.zero_le]
    exact List.countP_eq_zero.mpr fun a _ => by simp
  · rw [hnrows, hnnz, csr.rowPtr_transpose le_rfl, SparseCSR.before,
      List.countP_eq_length.mpr fun a ha => decide_eq_true (h.lt_of_mem ha), SparseCSR.entries,
      length_segment, Nat.sub_zero]
  · rw [hnrows] at hj
    have hptr : csr.transpose.rowPtr (j + 1) = csr.before (j + 1) := csr.rowPtr_transpose hj
    rw [csr.rowPtr_transpose hj.le, hptr]
    exact countP_lt_mono _ _ j.le_succ
  · rw [hnrows] at hj
    rw [hncols, h.row_transpose hj]
    exact column_row h.row j

theorem Csr.at_transpose (h : Csr csr) (hi : i < csr.nrows) (hj : j < csr.ncols) :
    csr.transpose.at j i = csr.at i j := by
  rw [SparseCSR.at, h.row_transpose hj]
  exact lookup_column hi

/-- **Transposing is an involution.** -/
theorem Csr.transpose_transpose (h : Csr csr) : Same csr.transpose.transpose csr := by
  obtain ⟨hnrows, hncols, -⟩ := dims_transpose csr
  obtain ⟨hnrows', hncols', -⟩ := dims_transpose csr.transpose
  refine h.transpose.transpose.same h (hnrows'.trans hncols) (hncols'.trans hnrows) fun i hi => ?_
  rw [hnrows', hncols] at hi
  calc csr.transpose.transpose.row i
      = column csr.transpose.row csr.transpose.nrows i :=
        h.transpose.row_transpose (hncols.symm ▸ hi)
    _ = column csr.transpose.row csr.ncols i := by rw [hnrows]
    _ = column (column csr.row csr.nrows) csr.ncols i :=
        column_congr (fun j hj => h.row_transpose hj) i
    _ = csr.row i := column_column (h.row i hi) hi

/-! ## What is denoted -/

variable [DecidableEq K]

/-- The sparse matrices that the operations make, with the matrices that they are for. -/
inductive Obtained : (nr nc : ℕ) → Matrix (Fin nr) (Fin nc) K → SparseCSR K → Prop
  | fromDense (nr nc : ℕ) (data : ℕ → ℕ → K) :
      Obtained nr nc (Matrix.of fun i j => data i j) (sparseFromDense nr nc data)
  | fromTriplets {nr nc nnzIn : ℕ} {rows cols : ℕ → ℤ} {vals : ℕ → K} {csr : SparseCSR K}
      (h : sparseFromTriplets nr nc nnzIn rows cols vals = .ok csr) :
      Obtained nr nc (Matrix.of fun i j => tripletSum nnzIn rows cols vals i j) csr
  | transpose {nr nc : ℕ} {M : Matrix (Fin nr) (Fin nc) K} {csr : SparseCSR K}
      (h : Obtained nr nc M csr) : Obtained nc nr M.transpose csr.transpose
  | scale {nr nc : ℕ} {M : Matrix (Fin nr) (Fin nc) K} {csr : SparseCSR K}
      (h : Obtained nr nc M csr) (alpha : K) : Obtained nr nc (alpha • M) (csr.scale alpha)

/-- The rows of `csr` are those of the matrix. -/
structure Denotes (nr nc : ℕ) (M : Matrix (Fin nr) (Fin nc) K) (csr : SparseCSR K) : Prop where
  nrows : csr.nrows = nr
  ncols : csr.ncols = nc
  wellFormed : Csr csr
  at_eq : ∀ (i : Fin nr) (j : Fin nc), csr.at i j = M i j

/-- All functions that read `csr` agree with the matrix. -/
structure Describes (nr nc : ℕ) (M : Matrix (Fin nr) (Fin nc) K) (csr : SparseCSR K) : Prop
    extends Denotes nr nc M csr where
  toDense : ∀ (i : Fin nr) (j : Fin nc), csr.toDense i j = M i j
  get : ∀ (i : Fin nr) (j : Fin nc), csr.get i j = M i j
  getRow : ∀ (i : Fin nr) (j : Fin nc), csr.getRow i j = M i j
  mv : ∀ (x : ℕ → K) (i : Fin nr), csr.mv x i = M.mulVec (fun j => x j) i
  tmv : ∀ (x : ℕ → K) (j : Fin nc), csr.tmv x j = M.transpose.mulVec (fun i => x i) j

variable {nr nc : ℕ} {M : Matrix (Fin nr) (Fin nc) K}

theorem denotes_sparseFromDense (nr nc : ℕ) (data : ℕ → ℕ → K) :
    Denotes nr nc (Matrix.of fun i j => data i j) (sparseFromDense nr nc data) := by
  obtain ⟨hnrows, hncols, -⟩ := dims_sparseFromDense nr nc data
  refine ⟨hnrows, hncols, csr_sparseFromDense nr nc data, fun i j => ?_⟩
  rw [SparseCSR.at, row_sparseFromDense data nc i.isLt, Matrix.of_apply]
  exact lookup_denseRow data i j.isLt

/-- Every operation keeps to the matrix. -/
theorem Obtained.denotes (h : Obtained nr nc M csr) : Denotes nr nc M csr := by
  induction h with
  | fromDense nr nc data => exact denotes_sparseFromDense nr nc data
  | fromTriplets h =>
      obtain ⟨-, rfl⟩ := sparseFromTriplets_ok_iff.mp h
      exact denotes_sparseFromDense _ _ _
  | @transpose nr nc M csr h ih =>
      obtain ⟨hnrows, hncols, -⟩ := dims_transpose csr
      refine ⟨hnrows.trans ih.ncols, hncols.trans ih.nrows, ih.wellFormed.transpose, fun j i => ?_⟩
      rw [ih.wellFormed.at_transpose (ih.nrows.symm ▸ i.isLt) (ih.ncols.symm ▸ j.isLt), ih.at_eq,
        Matrix.transpose_apply]
  | @scale nr nc M csr h alpha ih =>
      obtain ⟨hnrows, hncols, -⟩ := dims_scale csr alpha
      refine ⟨hnrows.trans ih.nrows, hncols.trans ih.ncols, ih.wellFormed.scale alpha, fun i j => ?_⟩
      rw [ih.wellFormed.at_scale alpha (ih.nrows.symm ▸ i.isLt), ih.at_eq, Matrix.smul_apply,
        smul_eq_mul, mul_comm]

omit [DecidableEq K] in
theorem Denotes.describes (h : Denotes nr nc M csr) : Describes nr nc M csr := by
  have hrow : ∀ i : Fin nr, (i : ℕ) < csr.nrows := fun i => h.nrows.symm ▸ i.isLt
  refine ⟨h, fun i j => ?_, fun i j => ?_, fun i j => ?_, fun x i => ?_, fun x j => ?_⟩
  · rw [h.wellFormed.toDense_eq (hrow i), h.at_eq]
  · rw [h.wellFormed.get_eq (hrow i), h.at_eq]
  · rw [h.wellFormed.getRow_eq (hrow i), h.at_eq]
  · rw [h.wellFormed.mv_eq x (hrow i), h.ncols, Finset.sum_range, Matrix.mulVec, dotProduct]
    exact Finset.sum_congr rfl fun j _ => by rw [h.at_eq]
  · rw [csr.tmv_eq, h.nrows, Finset.sum_range, Matrix.mulVec, dotProduct]
    exact Finset.sum_congr rfl fun i _ => by rw [h.at_eq, Matrix.transpose_apply]

/-- **A sparse matrix denotes one matrix.**  Triplets are accepted when their indices are
those of elements; and whatever is made of triplets and dense matrices by transposing and
scaling describes the matrix that it is for, and is not changed by transposing it twice. -/
theorem obtained_describes :
    (∀ (nr nc nnzIn : ℕ) (rows cols : ℕ → ℤ) (vals : ℕ → K),
      (∃ csr, sparseFromTriplets nr nc nnzIn rows cols vals = .ok csr) ↔
        ∀ k < nnzIn, InRange nr nc (rows k) (cols k)) ∧
    ∀ (nr nc : ℕ) (M : Matrix (Fin nr) (Fin nc) K) (csr : SparseCSR K), Obtained nr nc M csr →
      Describes nr nc M csr ∧ Same csr.transpose.transpose csr := by
  constructor
  · intro nr nc nnzIn rows cols vals
    simp only [sparseFromTriplets_ok_iff]
    exact ⟨fun h => h.choose_spec.1, fun h => ⟨_, h, rfl⟩⟩
  · intro nr nc M csr h
    exact ⟨h.denotes.describes, h.denotes.wellFormed.transpose_transpose⟩

/-- Two triplets with the same indices are added up. -/
theorem obtained_describes_two :
    ∃ csr : SparseCSR ℚ,
      sparseFromTriplets 1 2 2 (fun _ => 0) (fun _ => 1) (fun _ => 1) = .ok csr ∧
        csr.transpose.get 1 0 = 2 := by
  have hrange : InRange 1 2 0 1 := ⟨⟨by decide, by decide⟩, by decide, by decide⟩
  obtain ⟨csr, hcsr⟩ :=
    (obtained_describes.1 1 2 2 (fun _ => 0) (fun _ => 1) (fun _ => (1 : ℚ))).mpr fun _ _ => hrange
  obtain ⟨hdescribes, -⟩ := obtained_describes.2 2 1 _ _ (Obtained.fromTriplets hcsr).transpose
  refine ⟨csr, hcsr, (hdescribes.get ⟨1, by decide⟩ ⟨0, by decide⟩).trans ?_⟩
  rw [Matrix.transpose_apply, Matrix.of_apply, tripletSum, Finset.sum_range_succ,
    Finset.sum_range_one]
  norm_num

end Lush.Sparse
