import Lush.Matrices.Csr

/-!
# Sparse matrices of dense matrices

The rows of `sparse-from-dense` list what is not zero (`row_sparseFromDense`), and so a dense
matrix is what its sparse matrix denotes.  Triplets are added up in a dense matrix first.
-/

namespace Lush.Sparse

open SparseRows Spreading

variable {K : Type} [Field K]

/-! ## Rows of a dense matrix -/

/-- The elements of a row that are not zero, with their columns. -/
def denseRow [DecidableEq K] (data : ℕ → ℕ → K) (nc i : ℕ) : List (ℕ × K) :=
  ((List.range nc).filter (data i · ≠ 0)).map fun j => (j, data i j)

/-- The place where a row starts. -/
def start [DecidableEq K] (data : ℕ → ℕ → K) (nc i : ℕ) : ℕ :=
  ∑ r ∈ Finset.range i, (denseRow data nc r).length

variable [DecidableEq K] {data : ℕ → ℕ → K} {nr nc i n : ℕ}

theorem row_denseRow (data : ℕ → ℕ → K) (nc i : ℕ) : Row nc (denseRow data nc i) := by
  constructor
  · rw [denseRow, List.pairwise_map]
    exact List.pairwise_lt_range.filter _
  · intro a ha
    obtain ⟨j, hj, rfl⟩ := List.mem_map.mp ha
    exact List.mem_range.mp (List.mem_filter.mp hj).1

/-- What is left out is zero. -/
theorem lookup_nonzero (f : ℕ → K) (j : ℕ) {l : List ℕ} (hl : l.Nodup) :
    lookup ((l.filter (f · ≠ 0)).map fun j => (j, f j)) j = if j ∈ l then f j else 0 := by
  induction l with
  | nil => rfl
  | cons k l ih =>
      obtain ⟨hk, hl⟩ := List.nodup_cons.mp hl
      have hhead : lookup (((k :: l).filter (f · ≠ 0)).map fun j => (j, f j)) j =
          (if k = j then f k else 0) +
            lookup ((l.filter (f · ≠ 0)).map fun j => (j, f j)) j := by
        by_cases hzero : f k = 0
        · rw [List.filter_cons_of_neg (by simpa using hzero), hzero, ite_self, zero_add]
        · rw [List.filter_cons_of_pos (by simpa using hzero), List.map_cons, lookup_cons]
      rw [hhead, ih hl]
      by_cases hkj : k = j
      · subst hkj
        rw [if_pos rfl, if_neg hk, if_pos List.mem_cons_self, add_zero]
      · simp [hkj, Ne.symm hkj]

theorem lookup_denseRow (data : ℕ → ℕ → K) (i : ℕ) {j : ℕ} (hj : j < nc) :
    lookup (denseRow data nc i) j = data i j :=
  (lookup_nonzero (data i) j List.nodup_range).trans (if_pos (List.mem_range.mpr hj))

theorem start_succ (data : ℕ → ℕ → K) (nc i : ℕ) :
    start data nc (i + 1) = start data nc i + (denseRow data nc i).length :=
  Finset.sum_range_succ _ _

theorem start_mono (data : ℕ → ℕ → K) (nc : ℕ) : Monotone (start data nc) :=
  monotone_nat_of_le_succ fun i => by rw [start_succ]; exact Nat.le_add_right _ _

/-! ## Filling -/

theorem denseRow_succ (data : ℕ → ℕ → K) (nc i : ℕ) :
    denseRow data (nc + 1) i =
      denseRow data nc i ++ if data i nc ≠ 0 then [(nc, data i nc)] else [] := by
  rw [denseRow, List.range_succ, List.filter_append, List.map_append]
  by_cases hzero : data i nc = 0 <;> simp [hzero, denseRow]

/-- A loop over the columns is a loop over those where the element is not zero. -/
theorem loop_row_nonzero {σ : Type} (f : σ → ℕ × K → σ) (data : ℕ → ℕ → K) (nc i : ℕ) (s : σ) :
    loop 0 nc (fun s j => if data i j ≠ 0 then f s (j, data i j) else s) s =
      (denseRow data nc i).foldl f s := by
  induction nc generalizing s with
  | zero => rfl
  | succ nc ih =>
      rw [loop_succ, ih, denseRow_succ, List.foldl_append]
      by_cases hzero : data i nc = 0
      · rw [if_neg (not_not_intro hzero), if_neg (not_not_intro hzero), List.foldl_nil]
      · rw [if_pos hzero, if_pos hzero, List.foldl_cons, List.foldl_nil]

/-- The entries are counted. -/
theorem sparseCountNnz_eq (data : ℕ → ℕ → K) (nr nc : ℕ) :
    sparseCountNnz data nr nc = start data nc nr := by
  induction nr with
  | zero => rfl
  | succ nr ih =>
      have hcount : sparseCountNnz data (nr + 1) nc =
          loop 0 nc (fun count j => if data nr j ≠ 0 then count + 1 else count)
            (sparseCountNnz data nr nc) := loop_succ _ _ _
      rw [hcount, loop_row_nonzero (fun count _ => count + 1), List.foldl_const, ih, start_succ]
      exact Nat.succ_iterate _ _

/-- The next place, and the entries that are written. -/
def Filling.written (s : Filling K) : ℕ × (ℕ → ℕ × K) :=
  (s.pos, fun k => (s.colIdx k, s.values k))

theorem written_fillEntry (data : ℕ → ℕ → K) (i : ℕ) (s : Filling K) (j : ℕ) :
    (fillEntry data i s j).written =
      if data i j ≠ 0 then write s.written (j, data i j) else s.written := by
  by_cases hzero : data i j = 0
  · simp [fillEntry, hzero]
  · rw [fillEntry]
    simp only [ne_eq, hzero, not_false_eq_true, if_true]
    refine Prod.ext rfl (funext fun k => ?_)
    simp only [Filling.written, write, Function.update_apply]
    split_ifs <;> rfl

theorem rowPtr_fillEntry (data : ℕ → ℕ → K) (i : ℕ) (s : Filling K) (j : ℕ) :
    (fillEntry data i s j).rowPtr = s.rowPtr := by
  rw [fillEntry]
  split_ifs <;> rfl

/-- A row is written after what is there. -/
theorem fillRow_spec (data : ℕ → ℕ → K) (nc : ℕ) (s : Filling K) (i : ℕ) :
    (fillRow data nc s i).written = (denseRow data nc i).foldl write s.written ∧
      (fillRow data nc s i).rowPtr = Function.update s.rowPtr i s.pos := by
  have hcols : ∀ (n : ℕ) (s : Filling K),
      (loop 0 n (fillEntry data i) s).written =
        loop 0 n (fun w j => if data i j ≠ 0 then write w (j, data i j) else w) s.written ∧
      (loop 0 n (fillEntry data i) s).rowPtr = s.rowPtr := by
    intro n s
    induction n with
    | zero => exact ⟨rfl, rfl⟩
    | succ n ih =>
        rw [loop_succ, loop_succ, written_fillEntry, rowPtr_fillEntry, ih.1, ih.2]
        exact ⟨rfl, rfl⟩
  obtain ⟨hwritten, hrowPtr⟩ := hcols nc { s with rowPtr := Function.update s.rowPtr i s.pos }
  exact ⟨hwritten.trans (loop_row_nonzero write data nc i _), hrowPtr⟩

/-- The rows before `n` are written. -/
structure Filled (data : ℕ → ℕ → K) (nc n : ℕ) (s : Filling K) : Prop where
  pos : s.pos = start data nc n
  rowPtr : ∀ i < n, s.rowPtr i = start data nc i
  rows : ∀ i < n, segment s.written.2 (start data nc i) (start data nc (i + 1)) =
    denseRow data nc i

theorem Filled.fillRow {s : Filling K} (h : Filled data nc n s) :
    Filled data nc (n + 1) (fillRow data nc s n) := by
  obtain ⟨hwritten, hrowPtr⟩ := fillRow_spec data nc s n
  obtain ⟨hpos, hseg, hframe⟩ := foldl_write (denseRow data nc n) s.pos s.written.2
  have hs : (s.pos, s.written.2) = s.written := rfl
  rw [hs, ← hwritten, h.pos, ← start_succ] at hpos hseg
  rw [hs, ← hwritten, h.pos] at hframe
  refine ⟨hpos, fun i hi => ?_, fun i hi => ?_⟩
  · rw [hrowPtr, Function.update_apply]
    by_cases hin : i = n
    · rw [if_pos hin, hin, h.pos]
    · rw [if_neg hin]
      exact h.rowPtr i (by omega)
  · by_cases hin : i = n
    · rw [hin]
      exact hseg
    · rw [← h.rows i (by omega)]
      refine segment_congr fun p _ hp => hframe p (hp.trans_le ?_)
      exact start_mono data nc (by omega)

theorem filled_loop (data : ℕ → ℕ → K) (nc n : ℕ) (s : Filling K) (hs : s.pos = 0) :
    Filled data nc n (loop 0 n (fillRow data nc) s) := by
  induction n with
  | zero => exact ⟨hs, fun i hi => absurd hi i.not_lt_zero, fun i hi => absurd hi i.not_lt_zero⟩
  | succ n ih =>
      rw [loop_succ]
      exact ih.fillRow

/-! ## The sparse matrix -/

theorem start_zero (data : ℕ → ℕ → K) (nc : ℕ) : start data nc 0 = 0 := rfl

/-- Without entries all rows are empty. -/
theorem denseRow_eq_nil (h : start data nc nr = 0) (hi : i < nr) : denseRow data nc i = [] := by
  have hle := start_mono data nc (show i + 1 ≤ nr by omega)
  rw [start_succ, h] at hle
  exact List.length_eq_zero_iff.mp (by omega)

theorem rowPtr_sparseFromDense (data : ℕ → ℕ → K) (nc : ℕ) (hi : i ≤ nr) :
    (sparseFromDense nr nc data).rowPtr i = start data nc i := by
  rw [sparseFromDense, sparseCountNnz_eq]
  split_ifs with hnz
  · have hfilled := filled_loop data nc nr ⟨0, fun _ => 0, fun _ => 0, fun _ => 0⟩ rfl
    show Function.update _ nr _ i = _
    rw [Function.update_apply]
    by_cases hin : i = nr
    · rw [if_pos hin, hin]
      exact hfilled.pos
    · rw [if_neg hin]
      exact hfilled.rowPtr i (by omega)
  · have hle := start_mono data nc hi
    show 0 = _
    omega

/-- **The rows list what is not zero.** -/
theorem row_sparseFromDense (data : ℕ → ℕ → K) (nc : ℕ) (hi : i < nr) :
    (sparseFromDense nr nc data).row i = denseRow data nc i := by
  rw [SparseCSR.row, rowPtr_sparseFromDense data nc hi.le,
    rowPtr_sparseFromDense data nc (Nat.succ_le_of_lt hi)]
  by_cases hnz : start data nc nr > 0
  · have hfilled := filled_loop data nc nr ⟨0, fun _ => 0, fun _ => 0, fun _ => 0⟩ rfl
    rw [← hfilled.rows i hi, sparseFromDense, sparseCountNnz_eq, if_pos hnz]
    rfl
  · have hzero : start data nc nr = 0 := by omega
    rw [start_succ, denseRow_eq_nil hzero hi]
    exact segment_self _ _

theorem dims_sparseFromDense (nr nc : ℕ) (data : ℕ → ℕ → K) :
    (sparseFromDense nr nc data).nrows = nr ∧ (sparseFromDense nr nc data).ncols = nc ∧
      (sparseFromDense nr nc data).nnz = start data nc nr := by
  rw [sparseFromDense, sparseCountNnz_eq]
  split_ifs <;> exact ⟨rfl, rfl, rfl⟩

theorem csr_sparseFromDense (nr nc : ℕ) (data : ℕ → ℕ → K) :
    Csr (sparseFromDense nr nc data) := by
  obtain ⟨hnrows, hncols, hnnz⟩ := dims_sparseFromDense nr nc data
  refine ⟨?_, ?_, fun i hi => ?_, fun i hi => ?_⟩
  · exact rowPtr_sparseFromDense data nc (Nat.zero_le nr)
  · rw [hnrows, hnnz]
    exact rowPtr_sparseFromDense data nc le_rfl
  · rw [hnrows] at hi
    rw [rowPtr_sparseFromDense data nc hi.le, rowPtr_sparseFromDense data nc hi]
    exact start_mono data nc i.le_succ
  · rw [hnrows] at hi
    rw [hncols, row_sparseFromDense data nc hi]
    exact row_denseRow data nc i

/-! ## Triplets -/

/-- The indices of a triplet are those of an element. -/
def InRange (nr nc : ℕ) (r c : ℤ) : Prop := (0 ≤ r ∧ r < nr) ∧ 0 ≤ c ∧ c < nc

/-- The sum of the triplets with the same indices. -/
def tripletSum (nnzIn : ℕ) (rows cols : ℕ → ℤ) (vals : ℕ → K) (i j : ℕ) : K :=
  ∑ k ∈ Finset.range nnzIn, if rows k = i ∧ cols k = j then vals k else 0

variable {rows cols : ℕ → ℤ} {vals : ℕ → K}

omit [DecidableEq K] in
theorem addTriplet_ok_iff {dense dense' : ℕ → ℕ → K} {k : ℕ} :
    addTriplet nr nc rows cols vals dense k = .ok dense' ↔
      InRange nr nc (rows k) (cols k) ∧ dense' = fun i j =>
        dense i j + if rows k = i ∧ cols k = j then vals k else 0 := by
  have hiff : (0 ≤ rows k ∧ rows k < nr ∧ 0 ≤ cols k ∧ cols k < nc) ↔
      InRange nr nc (rows k) (cols k) := by
    rw [InRange, and_assoc]
  have hset : InRange nr nc (rows k) (cols k) →
      setEntry dense (rows k).toNat (cols k).toNat
        (dense (rows k).toNat (cols k).toNat + vals k) =
      fun i j => dense i j + if rows k = i ∧ cols k = j then vals k else 0 := by
    rintro ⟨⟨hr, -⟩, hc, -⟩
    obtain ⟨r, hr⟩ := Int.eq_ofNat_of_zero_le hr
    obtain ⟨c, hc⟩ := Int.eq_ofNat_of_zero_le hc
    rw [hr, hc, Int.toNat_natCast, Int.toNat_natCast]
    funext i j
    rw [setEntry, Function.update_apply]
    simp only [Nat.cast_inj]
    by_cases hi : i = r
    · subst hi
      rw [if_pos rfl, Function.update_apply]
      by_cases hj : j = c
      · rw [if_pos hj, if_pos ⟨rfl, hj.symm⟩, hj]
      · rw [if_neg hj, if_neg (fun h => hj h.2.symm), add_zero]
    · rw [if_neg hi, if_neg (fun h => hi h.1.symm), add_zero]
  rw [addTriplet]
  split_ifs with h
  · rw [hset (hiff.mp h), Except.ok.injEq]
    exact ⟨fun heq => ⟨hiff.mp h, heq.symm⟩, fun heq => heq.2.symm⟩
  · exact ⟨fun heq => (by cases heq), fun heq => absurd (hiff.mpr heq.1) h⟩

omit [DecidableEq K] in
theorem foldlM_addTriplet {n : ℕ} {dense : ℕ → ℕ → K} :
    (List.range n).foldlM (addTriplet nr nc rows cols vals) (fun _ _ => 0) = .ok dense ↔
      (∀ k < n, InRange nr nc (rows k) (cols k)) ∧ dense = tripletSum n rows cols vals := by
  induction n generalizing dense with
  | zero =>
      rw [List.range_zero, List.foldlM_nil]
      constructor
      · intro h
        exact ⟨fun k hk => absurd hk k.not_lt_zero, (Except.ok.inj h).symm⟩
      · rintro ⟨-, rfl⟩
        rfl
  | succ n ih =>
      have hsum : tripletSum (n + 1) rows cols vals = fun i j =>
          tripletSum n rows cols vals i j +
            if rows n = i ∧ cols n = j then vals n else 0 := by
        funext i j
        exact Finset.sum_range_succ _ _
      rw [List.range_succ, List.foldlM_append, bind_ok]
      simp only [List.foldlM_cons, List.foldlM_nil, bind_pure, ih]
      constructor
      · rintro ⟨dense', ⟨hrange, rfl⟩, hadd⟩
        obtain ⟨hn, rfl⟩ := addTriplet_ok_iff.mp hadd
        refine ⟨fun k hk => ?_, hsum.symm⟩
        rcases Nat.lt_succ_iff_lt_or_eq.mp hk with hk | rfl
        · exact hrange k hk
        · exact hn
      · rintro ⟨hrange, rfl⟩
        refine ⟨_, ⟨fun k hk => hrange k (hk.trans n.lt_succ_self), rfl⟩, ?_⟩
        exact addTriplet_ok_iff.mpr ⟨hrange n n.lt_succ_self, hsum⟩

/-- Triplets with indices of elements give the sparse matrix of their sums. -/
theorem sparseFromTriplets_ok_iff {csr : SparseCSR K} {n : ℕ} :
    sparseFromTriplets nr nc n rows cols vals = .ok csr ↔
      (∀ k < n, InRange nr nc (rows k) (cols k)) ∧
        csr = sparseFromDense nr nc (tripletSum n rows cols vals) := by
  rw [sparseFromTriplets, bind_ok]
  simp only [foldlM_addTriplet]
  constructor
  · rintro ⟨dense, ⟨hrange, rfl⟩, hcsr⟩
    exact ⟨hrange, (Except.ok.inj hcsr).symm⟩
  · rintro ⟨hrange, rfl⟩
    exact ⟨_, ⟨hrange, rfl⟩, rfl⟩

end Lush.Sparse
