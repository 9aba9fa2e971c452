import Lush.Datatable.StringColumn
import Lush.Conformal.Mondrian
import Lush.Library.Heapsort

/-!
# Random splits

`train-test-split` and `kfold-indices` cut a shuffled list of the indices.  A shuffle
exchanges elements whatever is drawn (`msShuffle_permuted`), so that the cuts are partitions
of the indices (`trainTestSplit_splits`, `kfoldIndices_folds`).
-/

namespace Lush.Splits

open Heapsort Datatable Lush.Conformal

/-! ## The code -/

/-- The numbers `(int)(Frand() * (i + 1))` that a shuffle draws, by the position `i`. -/
abbrev Draws := ℕ → ℕ

/-- `_ms-shuffle`, from the position `i` down. -/
def msShuffle (draws : Draws) : ℕ → (ℕ → ℕ) → ℕ → ℕ
  | 0, v => v
  | i + 1, v =>
      let j := if draws (i + 1) > i + 1 then i + 1 else draws (i + 1)
      msShuffle draws i (Function.update (Function.update v (i + 1) (v j)) j (v (i + 1)))

/-- `shuffle-idx`. -/
def shuffleIdx (draws : Draws) (n : ℕ) : Except Fault (ℕ → ℕ) := do
  let _ ← intMatrix n
  .ok (msShuffle draws (n - 1) id)

/-- `narrow`, on the first dimension. -/
def narrow (v : ℕ → ℕ) (size offset : ℕ) : List ℕ := (List.range' offset size).map v

/-- A list `(train-idx test-idx)`. -/
structure Split where
  trainIdx : List ℕ
  testIdx : List ℕ

section

variable {K : Type} [Field K] [LinearOrder K] [FloorRing K]

/-- `train-test-split`. -/
def trainTestSplit (draws : Draws) (n : ℕ) (testFraction : K) : Except Fault Split := do
  let ntest := max 1 (min ((n : ℤ) - 1) (truncate (1 / (2 : ℕ) + n * testFraction)))
  let ntrain := (n : ℤ) - ntest
  let perm ← shuffleIdx draws n
  let _ ← intMatrix ntrain.toNat
  let _ ← intMatrix ntest.toNat
  .ok ⟨narrow perm ntrain.toNat 0, narrow perm ntest.toNat ntrain.toNat⟩

end

/-- The size of a fold. -/
def foldSize (n k i : ℕ) : ℕ := n / k + if i < n % k then 1 else 0

/-- A round of the loop over the folds. -/
def kfoldRound (perm : ℕ → ℕ) (n k : ℕ) (state : List Split × ℕ) (i : ℕ) :
    Except Fault (List Split × ℕ) := do
  let (folds, offset) := state
  let size := foldSize n k i
  let _ ← intMatrix size
  let _ ← intMatrix (n - size)
  let after := n - offset - size
  let trainIdx := narrow perm offset 0 ++ narrow perm after (offset + size)
  .ok ((nconc1 folds ⟨trainIdx, narrow perm size offset⟩).2, offset + size)

/-- `kfold-indices`. -/
def kfoldIndices (draws : Draws) (n k : ℕ) : Except Fault (List Split) :=
  if k < 2 then .error (.error "k must be at least 2")
  else if k > n then .error (.error "k cannot exceed n")
  else do
    let perm ← shuffleIdx draws n
    let (folds, _) ← (List.range k).foldlM (kfoldRound perm n k) ([], 0)
    .ok folds

/-! ## What they are to compute -/

/-- The two parts of a split list the indices once. -/
def Split.Covers (s : Split) (n : ℕ) : Prop := (s.trainIdx ++ s.testIdx).Perm (List.range n)

/-- All folds list the indices once, and so do their test sets together. -/
structure Folds (n k : ℕ) (folds : List Split) : Prop where
  length : folds.length = k
  covers : ∀ f ∈ folds, f.Covers n
  tests : (folds.flatMap Split.testIdx).Perm (List.range n)

/-- The numbers differ by at most one. -/
def Balanced (size : Split → ℕ) (folds : List Split) : Prop :=
  ∀ f ∈ folds, ∀ g ∈ folds, size f ≤ size g + 1

/-! ## Shuffling -/

variable {draws : Draws} {n k i j : ℕ} {v perm : ℕ → ℕ}

theorem permuted_exchange (hi : i < n) (hj : j < n) :
    Permuted n v (Function.update (Function.update v i (v j)) j (v i)) := by
  refine ⟨Equiv.swap i j, fun l hl => Equiv.swap_apply_of_ne_of_ne (by omega) (by omega), ?_⟩
  funext l
  rcases eq_or_ne l j with rfl | hlj
  · simp
  · rcases eq_or_ne l i with rfl | hli
    · simp [hlj]
    · simp [Equiv.swap_apply_of_ne_of_ne hli hlj, hli, hlj]

/-- **A shuffle only exchanges elements.** -/
theorem msShuffle_permuted (hi : i < n) : Permuted n v (msShuffle draws i v) := by
  induction i generalizing v with
  | zero => exact .refl _ _
  | succ i ih =>
      rw [msShuffle]
      refine (permuted_exchange hi ?_).trans (ih (by omega))
      split_ifs <;> omega

/-- A shuffled array lists all indices. -/
theorem shuffleIdx_perm (h : shuffleIdx draws n = .ok perm) :
    ((List.range n).map perm).Perm (List.range n) := by
  obtain ⟨m, hm, h⟩ := bind_ok.mp h
  obtain rfl := Except.ok.inj h
  rcases Nat.eq_zero_or_pos n with rfl | hn
  · rfl
  · have hperm := (@msShuffle_permuted draws n (n - 1) id (by omega)).perm
    rwa [List.map_id] at hperm

theorem intMatrix_pos {m : ℕ} {l : List ℕ} (h : intMatrix m = .ok l) : 0 < m := by
  rw [intMatrix] at h
  split_ifs at h
  omega

/-! ## Cuts -/

/-- The parts before, in, and after a segment list the whole. -/
theorem range_eq_append (i j m : ℕ) :
    List.range (i + j + m) = List.range' 0 i ++ (List.range' i j ++ List.range' (i + j) m) := by
  have hrest := @List.range'_append_1 i j m
  have hall := @List.range'_append_1 0 i (j + m)
  rw [Nat.zero_add] at hall
  rw [hrest, hall, List.range_eq_range', Nat.add_assoc]

/-- A segment of a shuffled array is the test set, and what is around it the training set. -/
theorem covers_of_segment {m : ℕ} (hperm : ((List.range (i + j + m)).map perm).Perm
    (List.range (i + j + m))) :
    Split.Covers ⟨narrow perm i 0 ++ narrow perm m (i + j), narrow perm j i⟩ (i + j + m) := by
  have hcut : (List.range (i + j + m)).map perm =
      narrow perm i 0 ++ (narrow perm j i ++ narrow perm m (i + j)) := by
    rw [range_eq_append, List.map_append, List.map_append]
    rfl
  rw [Split.Covers]
  calc (narrow perm i 0 ++ narrow perm m (i + j) ++ narrow perm j i).Perm
        (narrow perm i 0 ++ (narrow perm j i ++ narrow perm m (i + j))) := by
          rw [List.append_assoc]
          exact (List.perm_append_comm).append_left _
    _ |>.Perm (List.range (i + j + m)) := hcut ▸ hperm

/-- **`train-test-split` returns a split of the indices.** -/
theorem trainTestSplit_covers {K : Type} [Field K] [LinearOrder K] [FloorRing K]
    {testFraction : K} {s : Split} (h : trainTestSplit draws n testFraction = .ok s) :
    s.Covers n := by
  rw [trainTestSplit] at h
  obtain ⟨perm, hshuffle, h⟩ := bind_ok.mp h
  obtain ⟨-, -, h⟩ := bind_ok.mp h
  obtain ⟨-, -, h⟩ := bind_ok.mp h
  obtain rfl := Except.ok.inj h
  obtain ⟨l, hn, -⟩ := bind_ok.mp hshuffle
  have hpos := intMatrix_pos hn
  set ntest := max 1 (min ((n : ℤ) - 1) (truncate (1 / (2 : ℕ) + n * testFraction))) with hntest
  have hle : ntest ≤ n := by omega
  have hn' : n = ((n : ℤ) - ntest).toNat + ntest.toNat + 0 := by omega
  have hperm := shuffleIdx_perm hshuffle
  rw [hn'] at hperm
  have hcovers := covers_of_segment hperm
  rw [← hn'] at hcovers
  simpa [narrow] using hcovers

/-! ## Folds -/

/-- Where a fold starts. -/
def foldOffset (n k i : ℕ) : ℕ := i * (n / k) + min i (n % k)

theorem foldOffset_succ (n k i : ℕ) : foldOffset n k (i + 1) = foldOffset n k i + foldSize n k i := by
  rw [foldOffset, foldOffset, foldSize, Nat.succ_mul]
  split_ifs <;> omega

/-- The last fold ends at the last index. -/
theorem foldOffset_last (hk : 0 < k) : foldOffset n k k = n := by
  have hdiv := Nat.div_add_mod n k
  have hmod := Nat.mod_lt n hk
  rw [foldOffset, min_eq_right hmod.le, hdiv]

theorem foldOffset_mono (n k : ℕ) : Monotone (foldOffset n k) := by
  apply monotone_nat_of_le_succ
  intro i
  rw [foldOffset_succ]
  exact Nat.le_add_right _ _

/-- A fold. -/
def foldAt (perm : ℕ → ℕ) (n k i : ℕ) : Split :=
  let offset := foldOffset n k i
  let size := foldSize n k i
  ⟨narrow perm offset 0 ++ narrow perm (n - offset - size) (offset + size),
    narrow perm size offset⟩

/-- The loop makes the folds one after the other. -/
theorem kfoldLoop_ok {state : List Split × ℕ}
    (h : (List.range i).foldlM (kfoldRound perm n k) ([], 0) = .ok state) :
    state = ((List.range i).map (foldAt perm n k), foldOffset n k i) := by
  induction i generalizing state with
  | zero =>
      obtain rfl := Except.ok.inj h
      rw [foldOffset]
      simp
  | succ i ih =>
      rw [List.range_succ, List.foldlM_append] at h
      obtain ⟨state', hstate', h⟩ := bind_ok.mp h
      obtain rfl := ih hstate'
      rw [List.foldlM_cons] at h
      obtain ⟨state'', hround, hend⟩ := bind_ok.mp h
      obtain rfl := Except.ok.inj hend
      obtain ⟨-, -, hround⟩ := bind_ok.mp hround
      obtain ⟨-, -, hround⟩ := bind_ok.mp hround
      obtain rfl := Except.ok.inj hround
      rw [nconc1_snd, List.range_succ, List.map_append, foldOffset_succ]
      rfl

theorem foldAt_covers (hperm : ((List.range n).map perm).Perm (List.range n)) (hi : i < k) :
    (foldAt perm n k i).Covers n := by
  have hle : foldOffset n k (i + 1) ≤ n :=
    (foldOffset_mono n k hi).trans_eq (foldOffset_last (by omega))
  rw [foldOffset_succ] at hle
  have hn : n = foldOffset n k i + foldSize n k i + (n - foldOffset n k i - foldSize n k i) := by
    omega
  rw [hn] at hperm
  have hcovers := covers_of_segment hperm
  rwa [← hn] at hcovers

/-- The test sets of the first folds are what comes first in the shuffled array. -/
theorem flatMap_testIdx (perm : ℕ → ℕ) (n k i : ℕ) :
    ((List.range i).map (foldAt perm n k)).flatMap Split.testIdx =
      (List.range (foldOffset n k i)).map perm := by
  induction i with
  | zero => simp [foldOffset]
  | succ i ih =>
      rw [List.range_succ, List.map_append, List.flatMap_append, ih, foldOffset_succ,
        ← Nat.add_zero (foldOffset n k i + foldSize n k i), range_eq_append]
      simp [foldAt, narrow, List.range_eq_range']

/-- **`kfold-indices` returns folds of the indices, of sizes that differ by at most one.** -/
theorem kfoldIndices_folds {folds : List Split} (h : kfoldIndices draws n k = .ok folds) :
    Folds n k folds ∧ Balanced (fun f => f.testIdx.length) folds := by
  rw [kfoldIndices] at h
  split_ifs at h with hk hkn
  obtain ⟨perm, hshuffle, h⟩ := bind_ok.mp h
  obtain ⟨state, hloop, h⟩ := bind_ok.mp h
  obtain rfl := kfoldLoop_ok hloop
  obtain rfl := Except.ok.inj h
  have hperm := shuffleIdx_perm hshuffle
  refine ⟨⟨by simp, fun f hf => ?_, ?_⟩, fun f hf g hg => ?_⟩
  · obtain ⟨i, hi, rfl⟩ := List.mem_map.mp hf
    exact foldAt_covers hperm (List.mem_range.mp hi)
  · show (((List.range k).map (foldAt perm n k)).flatMap Split.testIdx).Perm (List.range n)
    rw [flatMap_testIdx, foldOffset_last (by omega)]
    exact hperm
  · obtain ⟨i, -, rfl⟩ := List.mem_map.mp hf
    obtain ⟨j, -, rfl⟩ := List.mem_map.mp hg
    simp only [foldAt, narrow, List.length_map, List.length_range', foldSize]
    split_ifs <;> omega

end Lush.Splits
