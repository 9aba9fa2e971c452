import Mathlib

/-!
# Differences and run lengths

Two encodings of a list.  `deltas` keeps the first element and the difference of
every other one to the one before it; `sums` adds the differences up again, and the
two undo each other.  `runs` keeps one element of every run of equal ones, with the
length of the run, and `expand` undoes it.
-/

namespace Lush.Encodings

/-! ## Differences -/

variable {G : Type*} [AddGroup G]

/-- The differences of a list, where `a` comes before it. -/
def deltasFrom (a : G) : List G → List G
  | [] => []
  | x :: xs => (-a + x) :: deltasFrom x xs

/-- The running sums of a list, on top of `a`. -/
def sumsFrom (a : G) : List G → List G
  | [] => []
  | d :: ds => (a + d) :: sumsFrom (a + d) ds

/-- The first element and the differences that follow. -/
def deltas (xs : List G) : List G := deltasFrom 0 xs

/-- The running sums. -/
def sums (ds : List G) : List G := sumsFrom 0 ds

@[simp] theorem length_sumsFrom (a : G) (ds : List G) : (sumsFrom a ds).length = ds.length := by
  induction ds generalizing a with
  | nil => rfl
  | cons d ds ih => simp [sumsFrom, ih]

@[simp] theorem length_deltasFrom (a : G) (xs : List G) :
    (deltasFrom a xs).length = xs.length := by
  induction xs generalizing a with
  | nil => rfl
  | cons x xs ih => simp [deltasFrom, ih]

@[simp] theorem sumsFrom_deltasFrom (a : G) (xs : List G) :
    sumsFrom a (deltasFrom a xs) = xs := by
  induction xs generalizing a with
  | nil => rfl
  | cons x xs ih => rw [deltasFrom, sumsFrom, add_neg_cancel_left, ih]

@[simp] theorem length_sums (ds : List G) : (sums ds).length = ds.length :=
  length_sumsFrom _ _

@[simp] theorem length_deltas (xs : List G) : (deltas xs).length = xs.length :=
  length_deltasFrom _ _

/-- **The running sums of the differences.** -/
@[simp] theorem sums_deltas (xs : List G) : sums (deltas xs) = xs :=
  sumsFrom_deltasFrom 0 xs

theorem sumsFrom_append (a : G) (ds es : List G) :
    sumsFrom a (ds ++ es) = sumsFrom a ds ++ sumsFrom ((sumsFrom a ds).getLastD a) es := by
  induction ds generalizing a with
  | nil => rfl
  | cons d ds ih =>
      rw [List.cons_append, sumsFrom, ih, sumsFrom, List.cons_append, List.getLastD_cons]

theorem sums_append (ds es : List G) :
    sums (ds ++ es) = sums ds ++ sumsFrom ((sums ds).getLastD 0) es :=
  sumsFrom_append 0 ds es

/-! ## Run lengths -/

variable {α : Type*} [DecidableEq α]

/-- The runs of equal elements, with their lengths. -/
def runs : List α → List (α × ℕ)
  | [] => []
  | x :: xs =>
      match runs xs with
      | [] => [(x, 1)]
      | (y, n) :: rest => if x = y then (y, n + 1) :: rest else (x, 1) :: (y, n) :: rest

/-- The elements of some runs. -/
def expand (rs : List (α × ℕ)) : List α := rs.flatMap fun r => List.replicate r.2 r.1

omit [DecidableEq α] in
@[simp] theorem expand_cons (r : α × ℕ) (rs : List (α × ℕ)) :
    expand (r :: rs) = List.replicate r.2 r.1 ++ expand rs := rfl

/-- **The runs expand to the list.** -/
@[simp] theorem expand_runs (xs : List α) : expand (runs xs) = xs := by
  induction xs with
  | nil => rfl
  | cons x xs ih =>
      unfold runs
      split
      · next h =>
          rw [h] at ih
          rw [← ih]
          rfl
      · next y n rest h =>
          rw [h, expand_cons] at ih
          split_ifs with hxy
          · rw [expand_cons, List.replicate_succ, List.cons_append, ih, hxy]
          · rw [expand_cons, expand_cons, ih]
            rfl

omit [DecidableEq α] in
/-- No run is longer than the list that the runs expand to. -/
theorem run_le_length {rs : List (α × ℕ)} {r : α × ℕ} (h : r ∈ rs) :
    r.2 ≤ (expand rs).length := by
  induction rs with
  | nil => simp at h
  | cons q rs ih =>
      rw [expand_cons, List.length_append, List.length_replicate]
      rcases List.mem_cons.mp h with rfl | h
      · exact Nat.le_add_right _ _
      · exact (ih h).trans (Nat.le_add_left _ _)

theorem length_runs_le (xs : List α) : (runs xs).length ≤ xs.length := by
  induction xs with
  | nil => exact le_rfl
  | cons x xs ih =>
      unfold runs
      split
      · simp
      · next y n rest h =>
          rw [h] at ih
          split_ifs
          · exact ih.trans (Nat.le_succ _)
          · exact Nat.succ_le_succ ih

end Lush.Encodings
