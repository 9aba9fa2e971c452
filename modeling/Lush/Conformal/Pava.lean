import Lush.Library.Isotonic

/-!
# Isotonic regression by pooling

`_cp-pava` keeps a stack of blocks, and merges the last two while the mean of the first is
greater.  Then every block is written with its mean.
-/

namespace Lush.Conformal

open Isotonic

variable {K : Type} [Field K]

/-! ## The blocks -/

/-- A block: `bsum`, `bwt` and `bend`. -/
structure Block (K : Type) where
  sum : K
  wt : K
  last : ℕ

/-- The mean of a block. -/
def Block.mean (b : Block K) : K := b.sum / b.wt

/-- One block is written. -/
def fillBlock (val : K) (start last : ℕ) (out : ℕ → K) (j : ℕ) : K :=
  if start ≤ j ∧ j ≤ last then val else out j

/-- The blocks are written, the first one from `start` on. -/
def writeBlocks : ℕ → List (Block K) → (ℕ → K) → ℕ → K
  | _, [], out => out
  | start, b :: bs, out => writeBlocks (b.last + 1) bs (fillBlock b.mean start b.last out)

/-- Where the block after some blocks starts. -/
def nextStart : ℕ → List (Block K) → ℕ
  | start, [] => start
  | _, b :: bs => nextStart (b.last + 1) bs

theorem writeBlocks_concat (start : ℕ) (bs : List (Block K)) (b : Block K) (out : ℕ → K) :
    writeBlocks start (bs ++ [b]) out =
      fillBlock b.mean (nextStart start bs) b.last (writeBlocks start bs out) := by
  induction bs generalizing start out with
  | nil => rfl
  | cons b' bs ih => exact ih _ _

omit [Field K] in
theorem nextStart_concat (start : ℕ) (bs : List (Block K)) (b : Block K) :
    nextStart start (bs ++ [b]) = b.last + 1 := by
  induction bs generalizing start with
  | nil => rfl
  | cons b' bs ih => exact ih _

variable [LinearOrder K]

/-- The loop that merges the blocks `nb-2` and `nb-1`.  The stack has its top first. -/
def poolBlocks (curr : Block K) : List (Block K) → List (Block K)
  | [] => [curr]
  | prev :: rest =>
      if prev.mean ≤ curr.mean then curr :: prev :: rest
      else poolBlocks ⟨prev.sum + curr.sum, prev.wt + curr.wt, curr.last⟩ rest

/-- The stack after so many values. -/
def pavaBlocks (y w : ℕ → K) : ℕ → List (Block K)
  | 0 => []
  | i + 1 => poolBlocks ⟨y i * w i, w i, i⟩ (pavaBlocks y w i)

/-- `_cp-pava`. -/
def cpPava (y w : ℕ → K) (n : ℕ) (out : ℕ → K) : ℕ → K :=
  writeBlocks 0 (pavaBlocks y w n).reverse out

/-! ## The stack -/

variable {y w out : ℕ → K} {n s e : ℕ} {curr : Block K} {stack rest : List (Block K)}

theorem length_poolBlocks_le (curr : Block K) (rest : List (Block K)) :
    (poolBlocks curr rest).length ≤ rest.length + 1 := by
  induction rest generalizing curr with
  | nil => exact le_rfl
  | cons prev rest ih =>
      rw [poolBlocks]
      split_ifs
      · exact le_rfl
      · exact (ih _).trans (Nat.le_succ _)

/-- There is room for the blocks. -/
theorem length_pavaBlocks_le (y w : ℕ → K) (n : ℕ) : (pavaBlocks y w n).length ≤ n := by
  induction n with
  | zero => exact le_rfl
  | succ n ih => exact (length_poolBlocks_le _ _).trans (Nat.succ_le_succ ih)

/-- The block is the interval. -/
structure Covers (y w : ℕ → K) (b : Block K) (s e : ℕ) : Prop where
  pooled : Pooled y w s e
  sum : b.sum = total y w s e
  wt : b.wt = weight w s e
  last : b.last + 1 = e

theorem Covers.mean (h : Covers y w curr s e) : curr.mean = Isotonic.mean y w s e := by
  rw [Block.mean, h.sum, h.wt, Isotonic.mean]

/-- The blocks of the stack are consecutive intervals up to `e`, with means in ascending
order. -/
inductive Stacked (y w : ℕ → K) : ℕ → List (Block K) → Prop
  | nil : Stacked y w 0 []
  | cons {s e : ℕ} {b : Block K} {rest : List (Block K)} (h : Stacked y w s rest)
      (hcovers : Covers y w b s e) (hle : ∀ prev ∈ rest.head?, prev.mean ≤ b.mean) :
      Stacked y w e (b :: rest)

section
variable [IsStrictOrderedRing K]

/-- **A block is put on the stack.** -/
theorem Stacked.pool (h : Stacked y w s rest) (hcurr : Covers y w curr s e)
    (hw : ∀ j < n, 0 < w j) (he : e ≤ n) : Stacked y w e (poolBlocks curr rest) := by
  induction rest generalizing s curr with
  | nil =>
      cases h
      exact .cons .nil hcurr (by simp)
  | cons prev rest ih =>
      cases h with
      | @cons s' _ _ _ hrest hprev hle =>
          rw [poolBlocks]
          split_ifs with hmean
          · exact .cons (.cons hrest hprev hle) hcurr (by simpa using hmean)
          · apply ih hrest
            rw [hprev.mean, hcurr.mean, not_le] at hmean
            refine ⟨hprev.pooled.merge hcurr.pooled hw he hmean, ?_, ?_, hcurr.last⟩
            · rw [hprev.sum, hcurr.sum, total, total, total,
                Finset.sum_Ico_consecutive _ hprev.pooled.lt.le hcurr.pooled.lt.le]
            · rw [hprev.wt, hcurr.wt, weight, weight, weight,
                Finset.sum_Ico_consecutive _ hprev.pooled.lt.le hcurr.pooled.lt.le]

theorem stacked_pavaBlocks (hw : ∀ j < n, 0 < w j) {i : ℕ} (hi : i ≤ n) :
    Stacked y w i (pavaBlocks y w i) := by
  induction i with
  | zero => exact .nil
  | succ i ih =>
      apply (ih (Nat.le_of_succ_le hi)).pool _ hw hi
      exact ⟨pooled_single hw hi, by simp [total], by simp [weight], rfl⟩

/-! ## The output -/

omit [IsStrictOrderedRing K] in
/-- **The stack is written as a fit**, and nothing else is written. -/
theorem Stacked.fit (h : Stacked y w e stack) (out : ℕ → K) :
    Fit y w (writeBlocks 0 stack.reverse out) e ∧ nextStart 0 stack.reverse = e ∧
      (∀ b ∈ stack.head?, ∀ j < e, writeBlocks 0 stack.reverse out j ≤ b.mean) ∧
      ∀ j, e ≤ j → writeBlocks 0 stack.reverse out j = out j := by
  induction h with
  | nil => exact ⟨.zero, rfl, by simp, fun _ _ => rfl⟩
  | @cons s e b rest h hcovers hle ih =>
      obtain ⟨hfit, hnext, hbound, hframe⟩ := ih
      have hlast := hcovers.last
      have hlt := hcovers.pooled.lt
      rw [List.reverse_cons, writeBlocks_concat, nextStart_concat, hnext]
      set z := writeBlocks 0 rest.reverse out
      have hbefore : ∀ j < s, fillBlock b.mean s b.last z j = z j :=
        fun j hj => if_neg fun hin => absurd hin.1 (Nat.not_le.mpr hj)
      have hinside : ∀ j, s ≤ j → j < e → fillBlock b.mean s b.last z j = b.mean :=
        fun j hsj hje => if_pos ⟨hsj, by omega⟩
      have hafter : ∀ j, e ≤ j → fillBlock b.mean s b.last z j = z j :=
        fun j hj => if_neg fun hin => by omega
      -- the values before the block are bounded by the block before it
      have hz : ∀ j < s, z j ≤ b.mean := by
        intro j hj
        cases h with
        | nil => exact absurd hj (Nat.not_lt_zero j)
        | cons _ _ _ => exact (hbound _ rfl j hj).trans (hle _ rfl)
      refine ⟨.block (hfit.congr hbefore) hcovers.pooled (fun j hsj hje => ?_) fun j hj => ?_,
        hlast, ?_, fun j hj => ?_⟩
      · rw [hinside j hsj hje, hcovers.mean]
      · rw [hbefore j hj, ← hcovers.mean]
        exact hz j hj
      · rintro b' hb' j hj
        obtain rfl : b = b' := by simpa using hb'
        rcases Nat.lt_or_ge j s with hjs | hsj
        · exact (hbefore j hjs).trans_le (hz j hjs)
        · exact (hinside j hsj hj).le
      · rw [hafter j hj]
        exact hframe j (hlt.le.trans hj)

theorem cpPava_fit (hw : ∀ j < n, 0 < w j) (out : ℕ → K) :
    Fit y w (cpPava y w n out) n ∧ ∀ j, n ≤ j → cpPava y w n out j = out j := by
  obtain ⟨hfit, -, -, hframe⟩ := (stacked_pavaBlocks (y := y) hw le_rfl).fit out
  exact ⟨hfit, hframe⟩

/-- **`_cp-pava` is isotonic regression.** -/
theorem cpPava_isotonic (y w : ℕ → K) (n : ℕ) (hw : ∀ j < n, 0 < w j) (out : ℕ → K) :
    (∀ i j, i ≤ j → j < n → cpPava y w n out i ≤ cpPava y w n out j) ∧
      (∀ i, ∀ hi : i < n, cpPava y w n out i = maxMin y w n i hi) ∧
      (∀ j, n ≤ j → cpPava y w n out j = out j) ∧
      ∀ z : ℕ → K, (∀ i j, i ≤ j → j < n → z i ≤ z j) →
        cost y w (cpPava y w n out) n ≤ cost y w z n ∧
          (cost y w z n = cost y w (cpPava y w n out) n → ∀ j < n, z j = cpPava y w n out j) := by
  obtain ⟨hfit, hframe⟩ := cpPava_fit (y := y) hw out
  refine ⟨hfit.mono, fun i hi => hfit.eq_maxMin hw hi, hframe, fun z hz => ?_⟩
  exact ⟨hfit.cost_le hw hz, fun hcost => hfit.unique hw hz hcost.le⟩

end

/-- The values `1` and `0` are pooled. -/
theorem cpPava_isotonic_pair :
    cpPava (fun j => if j = 0 then (1 : ℚ) else 0) (fun _ => 1) 2 (fun _ => 0) 0 =
      maxMin (fun j => if j = 0 then (1 : ℚ) else 0) (fun _ => 1) 2 0 Nat.zero_lt_two :=
  (cpPava_isotonic (fun j => if j = 0 then (1 : ℚ) else 0) (fun _ => 1) 2
    (fun _ _ => one_pos) fun _ => 0).2.1 0 Nat.zero_lt_two

end Lush.Conformal
