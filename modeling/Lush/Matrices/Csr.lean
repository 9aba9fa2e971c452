import Lush.Basic
import Lush.Library.SparseRows
import Lush.Library.Spreading

/-!
# Compressed sparse row matrices

A `SparseCSR` has the columns and the values of all rows one after the other, and the places
where the rows start.  Its rows are sparse rows (`Csr`), and all functions that read it are
loops over a row; so they agree on the matrix that it denotes.
-/

namespace Lush.Sparse

open SparseRows Spreading

variable {K : Type} [Field K]

/-! ## The code -/

/-- `SparseCSR`.  The arrays are functions of the position. -/
structure SparseCSR (K : Type) where
  nrows : ℕ
  ncols : ℕ
  nnz : ℕ
  rowPtr : ℕ → ℕ
  colIdx : ℕ → ℕ
  values : ℕ → K

/-- A loop from `start` to before `stop`. -/
def loop {σ : Type} (start stop : ℕ) (f : σ → ℕ → σ) (s : σ) : σ :=
  (List.range' start (stop - start)).foldl f s

/-- `_sparse-csr-mv`. -/
def sparseCsrMv (rowPtr colIdx : ℕ → ℕ) (values : ℕ → K) (nrows : ℕ) (x y : ℕ → K) : ℕ → K :=
  loop 0 nrows (fun y i =>
    let s := loop (rowPtr i) (rowPtr (i + 1)) (fun s j => s + values j * x (colIdx j)) 0
    Function.update y i s) y

/-- `_sparse-csr-tmv`. -/
def sparseCsrTmv (rowPtr colIdx : ℕ → ℕ) (values : ℕ → K) (nrows ncols : ℕ) (x y : ℕ → K) :
    ℕ → K :=
  let y := loop 0 ncols (fun y j => Function.update y j 0) y
  loop 0 nrows (fun y i =>
    let xi := x i
    loop (rowPtr i) (rowPtr (i + 1)) (fun y j =>
      let col := colIdx j
      Function.update y col (y col + values j * xi)) y) y

/-- `_sparse-count-nnz`. -/
def sparseCountNnz [DecidableEq K] (data : ℕ → ℕ → K) (nrows ncols : ℕ) : ℕ :=
  loop 0 nrows (fun count i =>
    loop 0 ncols (fun count j => if data i j ≠ 0 then count + 1 else count) count) 0

/-- The variables of `_sparse-dense-to-csr`. -/
structure Filling (K : Type) where
  pos : ℕ
  rowPtr : ℕ → ℕ
  colIdx : ℕ → ℕ
  values : ℕ → K

/-- A round of the loop over the columns. -/
def fillEntry [DecidableEq K] (data : ℕ → ℕ → K) (i : ℕ) (s : Filling K) (j : ℕ) : Filling K :=
  let val := data i j
  if val ≠ 0 then
    { s with
      colIdx := Function.update s.colIdx s.pos j
      values := Function.update s.values s.pos val
      pos := s.pos + 1 }
  else s

/-- A round of the loop over the rows. -/
def fillRow [DecidableEq K] (data : ℕ → ℕ → K) (ncols : ℕ) (s : Filling K) (i : ℕ) : Filling K :=
  loop 0 ncols (fillEntry data i) { s with rowPtr := Function.update s.rowPtr i s.pos }

/-- `_sparse-dense-to-csr`. -/
def sparseDenseToCsr [DecidableEq K] (data : ℕ → ℕ → K) (nrows ncols : ℕ) (rowPtr colIdx : ℕ → ℕ)
    (values : ℕ → K) : Filling K :=
  let s := loop 0 nrows (fillRow data ncols) ⟨0, rowPtr, colIdx, values⟩
  { s with rowPtr := Function.update s.rowPtr nrows s.pos }

/-- An element of a matrix is set. -/
def setEntry (out : ℕ → ℕ → K) (i j : ℕ) (v : K) : ℕ → ℕ → K :=
  Function.update out i (Function.update (out i) j v)

/-- `_sparse-csr-to-dense`, on a matrix of zeros. -/
def sparseCsrToDense (rowPtr colIdx : ℕ → ℕ) (values : ℕ → K) (nrows : ℕ) : ℕ → ℕ → K :=
  loop 0 nrows (fun out i =>
    loop (rowPtr i) (rowPtr (i + 1)) (fun out j => setEntry out i (colIdx j) (values j)) out)
      fun _ _ => 0

/-- `sparse-from-dense`. -/
def sparseFromDense [DecidableEq K] (nr nc : ℕ) (data : ℕ → ℕ → K) : SparseCSR K :=
  let nz := sparseCountNnz data nr nc
  if nz > 0 then
    let s := sparseDenseToCsr data nr nc (fun _ => 0) (fun _ => 0) fun _ => 0
    ⟨nr, nc, nz, s.rowPtr, s.colIdx, s.values⟩
  else ⟨nr, nc, nz, fun _ => 0, fun _ => 0, fun _ => 0⟩

/-- A triplet is added to the matrix. -/
def addTriplet (nr nc : ℕ) (rows cols : ℕ → ℤ) (vals : ℕ → K) (dense : ℕ → ℕ → K) (k : ℕ) :
    Except Fault (ℕ → ℕ → K) :=
  let r := rows k
  let c := cols k
  if 0 ≤ r ∧ r < nr ∧ 0 ≤ c ∧ c < nc then
    .ok (setEntry dense r.toNat c.toNat (dense r.toNat c.toNat + vals k))
  else .error (.error "subscript out of range")

/-- `sparse-from-triplets`, on vectors of `nnzIn` elements. -/
def sparseFromTriplets [DecidableEq K] (nr nc nnzIn : ℕ) (rows cols : ℕ → ℤ) (vals : ℕ → K) :
    Except Fault (SparseCSR K) := do
  let dense ← (List.range nnzIn).foldlM (addTriplet nr nc rows cols vals) fun _ _ => 0
  .ok (sparseFromDense nr nc dense)

/-- The variables of the loop that fills the transposed matrix. -/
structure Cursor (K : Type) where
  cursor : ℕ → ℕ
  tCi : ℕ → ℕ
  tV : ℕ → K

namespace SparseCSR

variable (csr : SparseCSR K)

/-- `mv`. -/
def mv (x : ℕ → K) : ℕ → K :=
  sparseCsrMv csr.rowPtr csr.colIdx csr.values csr.nrows x fun _ => 0

/-- `tmv`. -/
def tmv (x : ℕ → K) : ℕ → K :=
  sparseCsrTmv csr.rowPtr csr.colIdx csr.values csr.nrows csr.ncols x fun _ => 0

/-- `to-dense`. -/
def toDense : ℕ → ℕ → K := sparseCsrToDense csr.rowPtr csr.colIdx csr.values csr.nrows

/-- `scale`. -/
def scale (alpha : K) : SparseCSR K :=
  if csr.nnz > 0 then
    { csr with
      values := loop 0 csr.nnz (fun v i => Function.update v i (v i * alpha)) csr.values }
  else csr

/-- An entry of row `i` is put in the row of its column. -/
def fillTransposed (i : ℕ) (s : Cursor K) (k : ℕ) : Cursor K :=
  let c := csr.colIdx k
  let pos := s.cursor c
  ⟨Function.update s.cursor c (pos + 1), Function.update s.tCi pos i,
    Function.update s.tV pos (csr.values k)⟩

/-- The row pointers of the transposed matrix. -/
def transposedRowPtr : ℕ → ℕ :=
  let tRp := loop 0 csr.nnz (fun tRp k =>
    let c := csr.colIdx k
    Function.update tRp (c + 1) (tRp (c + 1) + 1)) fun _ => 0
  loop 1 (csr.ncols + 1) (fun tRp j => Function.update tRp j (tRp j + tRp (j - 1))) tRp

/-- `transpose`. -/
def transpose : SparseCSR K :=
  if csr.nnz > 0 then
    let tRp := csr.transposedRowPtr
    let cursor := loop 0 csr.ncols (fun cursor j => Function.update cursor j (tRp j)) fun _ => 0
    let s := loop 0 csr.nrows (fun s i =>
      loop (csr.rowPtr i) (csr.rowPtr (i + 1)) (csr.fillTransposed i) s)
        ⟨cursor, fun _ => 0, fun _ => 0⟩
    ⟨csr.ncols, csr.nrows, csr.nnz, tRp, s.tCi, s.tV⟩
  else ⟨csr.ncols, csr.nrows, csr.nnz, fun _ => 0, fun _ => 0, fun _ => 0⟩

/-- `get-row`. -/
def getRow (i : ℕ) : ℕ → K :=
  loop (csr.rowPtr i) (csr.rowPtr (i + 1))
    (fun out k => Function.update out (csr.colIdx k) (csr.values k)) fun _ => 0

/-- `get`. -/
def get (i j : ℕ) : K :=
  loop (csr.rowPtr i) (csr.rowPtr (i + 1))
    (fun result k => if csr.colIdx k = j then csr.values k else result) 0

end SparseCSR

/-! ## Rows -/

/-- The entry at a position. -/
def SparseCSR.entry (csr : SparseCSR K) (k : ℕ) : ℕ × K := (csr.colIdx k, csr.values k)

/-- The entries of a row. -/
def SparseCSR.row (csr : SparseCSR K) (i : ℕ) : List (ℕ × K) :=
  Spreading.segment csr.entry (csr.rowPtr i) (csr.rowPtr (i + 1))

/-- The row pointers go from zero to the number of entries, and in each row the columns are
ascending. -/
structure Csr (csr : SparseCSR K) : Prop where
  first : csr.rowPtr 0 = 0
  last : csr.rowPtr csr.nrows = csr.nnz
  mono : ∀ i < csr.nrows, csr.rowPtr i ≤ csr.rowPtr (i + 1)
  row : ∀ i < csr.nrows, Row csr.ncols (csr.row i)

variable {csr : SparseCSR K} {i j : ℕ}

omit [Field K] in
/-- A loop over the positions of a row is a loop over its entries. -/
theorem loop_row {σ : Type} (csr : SparseCSR K) (i : ℕ) (f : σ → ℕ × K → σ) (s : σ) :
    loop (csr.rowPtr i) (csr.rowPtr (i + 1)) (fun s k => f s (csr.entry k)) s =
      (csr.row i).foldl f s := by
  rw [SparseCSR.row, Spreading.segment, List.foldl_map]
  rfl

theorem loop_succ {σ : Type} (n : ℕ) (f : σ → ℕ → σ) (s : σ) :
    loop 0 (n + 1) f s = f (loop 0 n f s) n := by
  rw [loop, loop, Nat.sub_zero, Nat.sub_zero, List.range'_1_concat, List.foldl_append, Nat.zero_add]
  rfl

/-- A loop in which each round changes one place. -/
theorem loop_modify {α : Type} (n : ℕ) (f : ℕ → α → α) (a : ℕ → α) (i : ℕ) :
    loop 0 n (fun a i => Function.update a i (f i (a i))) a i =
      if i < n then f i (a i) else a i := by
  induction n with
  | zero => rfl
  | succ n ih =>
      rw [loop_succ, Function.update_apply]
      by_cases hi : i = n
      · subst hi
        rw [if_pos rfl, ih, if_neg (lt_irrefl i), if_pos (Nat.lt_succ_self i)]
      · have hiff : i < n + 1 ↔ i < n := by omega
        rw [if_neg hi, ih]
        simp only [hiff]

/-! ## Readers -/

/-- **What is denoted**: the value at a row and a column. -/
def SparseCSR.at (csr : SparseCSR K) (i j : ℕ) : K := lookup (csr.row i) j

/-- The value of an entry is written at its column. -/
def scatter (out : ℕ → K) (a : ℕ × K) : ℕ → K := Function.update out a.1 a.2

theorem Csr.foldl_scatter (h : Csr csr) (hi : i < csr.nrows) (j : ℕ) :
    (csr.row i).foldl scatter (fun _ => 0) j = csr.at i j :=
  (foldl_update (h.row i hi) _).trans (ite_lookup _ _)

theorem Csr.getRow_eq (h : Csr csr) (hi : i < csr.nrows) (j : ℕ) :
    csr.getRow i j = csr.at i j := by
  calc csr.getRow i j
      = (csr.row i).foldl scatter (fun _ => 0) j := congrFun (loop_row csr i scatter _) j
    _ = csr.at i j := h.foldl_scatter hi j

theorem Csr.get_eq (h : Csr csr) (hi : i < csr.nrows) (j : ℕ) : csr.get i j = csr.at i j := by
  calc csr.get i j
      = (csr.row i).foldl (fun r a => if a.1 = j then a.2 else r) 0 :=
        loop_row csr i (fun r a => if a.1 = j then a.2 else r) 0
    _ = if ∃ a ∈ csr.row i, a.1 = j then csr.at i j else 0 := foldl_get (h.row i hi) _
    _ = csr.at i j := ite_lookup _ _

omit [Field K] in
/-- The elements that are set are all in one row. -/
theorem foldl_setEntry (l : List (ℕ × K)) (out : ℕ → ℕ → K) :
    l.foldl (fun out a => setEntry out i a.1 a.2) out =
      Function.update out i (l.foldl scatter (out i)) := by
  induction l generalizing out with
  | nil => exact (Function.update_eq_self i out).symm
  | cons a l ih =>
      rw [List.foldl_cons, ih, List.foldl_cons, setEntry, Function.update_self,
        Function.update_idem]
      rfl

theorem Csr.toDense_eq (h : Csr csr) (hi : i < csr.nrows) (j : ℕ) :
    csr.toDense i j = csr.at i j := by
  have hround : (fun out i => loop (csr.rowPtr i) (csr.rowPtr (i + 1))
      (fun out k => setEntry out i (csr.colIdx k) (csr.values k)) out) =
      fun out i => Function.update out i ((csr.row i).foldl scatter (out i)) := by
    funext out i
    exact (loop_row csr i (fun out a => setEntry out i a.1 a.2) out).trans (foldl_setEntry _ _)
  have hloop := loop_modify csr.nrows (fun i row => (csr.row i).foldl scatter row)
    (fun _ _ => 0) i
  rw [if_pos hi] at hloop
  rw [SparseCSR.toDense, sparseCsrToDense, hround, hloop]
  exact h.foldl_scatter hi j

theorem Csr.mv_eq (h : Csr csr) (x : ℕ → K) (hi : i < csr.nrows) :
    csr.mv x i = ∑ j ∈ Finset.range csr.ncols, csr.at i j * x j := by
  have hloop := loop_modify csr.nrows (fun i _ => loop (csr.rowPtr i) (csr.rowPtr (i + 1))
    (fun s k => s + csr.values k * x (csr.colIdx k)) 0) (fun _ => 0) i
  rw [if_pos hi] at hloop
  calc csr.mv x i
      = loop (csr.rowPtr i) (csr.rowPtr (i + 1))
          (fun s k => s + csr.values k * x (csr.colIdx k)) 0 := hloop
    _ = (csr.row i).foldl (fun s a => s + a.2 * x a.1) 0 :=
        loop_row csr i (fun s a => s + a.2 * x a.1) 0
    _ = ∑ j ∈ Finset.range csr.ncols, csr.at i j * x j := foldl_dot (h.row i hi).lt x

/-- The product with the transposed matrix adds to a column what each row has there. -/
theorem SparseCSR.tmv_eq (csr : SparseCSR K) (x : ℕ → K) (j : ℕ) :
    csr.tmv x j = ∑ i ∈ Finset.range csr.nrows, csr.at i j * x i := by
  have hzero : loop 0 csr.ncols (fun y j => Function.update y j 0) (fun _ => (0 : K)) =
      fun _ => 0 := by
    funext j
    rw [loop_modify csr.ncols (fun _ _ => (0 : K)), ite_self]
  have hrows : ∀ n, loop 0 n (fun y i => loop (csr.rowPtr i) (csr.rowPtr (i + 1))
      (fun (y : ℕ → K) k =>
        Function.update y (csr.colIdx k) (y (csr.colIdx k) + csr.values k * x i)) y)
          (fun _ => 0) j = ∑ i ∈ Finset.range n, csr.at i j * x i := by
    intro n
    induction n with
    | zero => rfl
    | succ n ih =>
        rw [loop_succ, Finset.sum_range_succ, ← ih]
        have hrow := loop_row csr n
          (fun (y : ℕ → K) a => Function.update y a.1 (y a.1 + a.2 * x n))
        exact (congrFun (hrow _) j).trans (foldl_axpy _ _ _)
  rw [SparseCSR.tmv, sparseCsrTmv, hzero]
  exact hrows csr.nrows

end Lush.Sparse
