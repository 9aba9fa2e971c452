import Lush.Library.KeyedLists

/-!
# Sparse rows

A row is a list of columns with their values, in ascending order of the columns, and the
value of a column that is not listed is zero (`lookup`).  Loops over a row give the same as
loops over all columns; `column` gathers a column of some rows, which is a row of the
transposed matrix, and so it gives the rows back when it is applied to the columns
(`column_column`).
-/

namespace Lush.SparseRows

open Grouping

variable {K : Type*} [CommSemiring K] {l : List (ℕ × K)} {rows : ℕ → List (ℕ × K)} {m n i j : ℕ}

/-- The columns of a row are ascending, and less than `n`. -/
structure Row (n : ℕ) (l : List (ℕ × K)) : Prop where
  ascending : l.Pairwise fun a b => a.1 < b.1
  lt : ∀ a ∈ l, a.1 < n

/-- The value at a column. -/
def lookup (l : List (ℕ × K)) (j : ℕ) : K := ((l.filter (·.1 = j)).map Prod.snd).sum

/-- The rows in which a column is listed, with the values. -/
def column (rows : ℕ → List (ℕ × K)) (m j : ℕ) : List (ℕ × K) :=
  (List.range m).flatMap fun i => ((rows i).filter (·.1 = j)).map fun a => (i, a.2)

@[simp] theorem lookup_nil (j : ℕ) : lookup ([] : List (ℕ × K)) j = 0 := rfl

theorem lookup_cons (a : ℕ × K) (l : List (ℕ × K)) (j : ℕ) :
    lookup (a :: l) j = (if a.1 = j then a.2 else 0) + lookup l j := by
  by_cases h : a.1 = j <;> simp [lookup, h]

theorem lookup_eq_zero (h : ∀ a ∈ l, a.1 ≠ j) : lookup l j = 0 := by
  have hnil : l.filter (·.1 = j) = [] := List.filter_eq_nil_iff.mpr fun a ha => by simpa using h a ha
  rw [lookup, hnil]
  rfl

/-! ## Loops over a row -/

omit [CommSemiring K] in
theorem exists_cons_iff {a : ℕ × K} (ha : a.1 ≠ j) :
    (∃ b ∈ a :: l, b.1 = j) ↔ ∃ b ∈ l, b.1 = j := by
  simp [ha]

/-- The last value at a column is the only one. -/
theorem foldl_get (h : Row n l) (r : K) :
    l.foldl (fun r a => if a.1 = j then a.2 else r) r =
      if ∃ a ∈ l, a.1 = j then lookup l j else r := by
  obtain ⟨hascending, -⟩ := h
  induction l generalizing r with
  | nil => simp
  | cons a l ih =>
      obtain ⟨hlt, hl⟩ := List.pairwise_cons.mp hascending
      rw [List.foldl_cons, ih _ hl, lookup_cons]
      by_cases ha : a.1 = j
      · have hrest : ∀ b ∈ l, b.1 ≠ j := fun b hb => ha ▸ (hlt b hb).ne'
        rw [if_neg (by push Not; exact hrest), if_pos ha, if_pos ⟨a, List.mem_cons_self, ha⟩,
          if_pos ha, lookup_eq_zero hrest, add_zero]
      · rw [if_neg ha, if_neg ha, zero_add]
        simp only [exists_cons_iff ha]

/-- Values that are written at their columns. -/
theorem foldl_update (h : Row n l) (out : ℕ → K) :
    l.foldl (fun out a => Function.update out a.1 a.2) out j =
      if ∃ a ∈ l, a.1 = j then lookup l j else out j := by
  obtain ⟨hascending, -⟩ := h
  induction l generalizing out with
  | nil => simp
  | cons a l ih =>
      obtain ⟨hlt, hl⟩ := List.pairwise_cons.mp hascending
      rw [List.foldl_cons, ih _ hl, lookup_cons, Function.update_apply]
      by_cases ha : a.1 = j
      · have hrest : ∀ b ∈ l, b.1 ≠ j := fun b hb => ha ▸ (hlt b hb).ne'
        have hexists : ∃ b ∈ a :: l, b.1 = j := ⟨a, List.mem_cons_self, ha⟩
        rw [if_neg (by push Not; exact hrest), if_pos ha.symm, if_pos hexists, if_pos ha,
          lookup_eq_zero hrest, add_zero]
      · rw [if_neg (Ne.symm ha), if_neg ha, zero_add]
        simp only [exists_cons_iff ha]

/-- What is not listed is zero. -/
theorem ite_lookup (l : List (ℕ × K)) (j : ℕ) :
    (if ∃ a ∈ l, a.1 = j then lookup l j else 0) = lookup l j := by
  split_ifs with h
  · rfl
  · push Not at h
    exact (lookup_eq_zero h).symm

/-- The product with a vector. -/
theorem foldl_dot (h : ∀ a ∈ l, a.1 < n) (x : ℕ → K) :
    l.foldl (fun s a => s + a.2 * x a.1) 0 = ∑ j ∈ Finset.range n, lookup l j * x j := by
  have hfold : ∀ s : K, l.foldl (fun s a => s + a.2 * x a.1) s =
      s + ∑ j ∈ Finset.range n, lookup l j * x j := by
    induction l with
    | nil => simp
    | cons a l ih =>
        intro s
        obtain ⟨ha, hl⟩ := List.forall_mem_cons.mp h
        rw [List.foldl_cons, ih hl]
        simp only [lookup_cons, add_mul, Finset.sum_add_distrib, ite_mul, zero_mul,
          Finset.sum_ite_eq, Finset.mem_range, if_pos ha, add_assoc]
  rw [hfold, zero_add]

/-- Multiples of the values are added at their columns. -/
theorem foldl_axpy (l : List (ℕ × K)) (c : K) (y : ℕ → K) :
    l.foldl (fun y a => Function.update y a.1 (y a.1 + a.2 * c)) y j = y j + lookup l j * c := by
  induction l generalizing y with
  | nil => simp
  | cons a l ih =>
      rw [List.foldl_cons, ih, lookup_cons, Function.update_apply]
      by_cases ha : a.1 = j
      · rw [if_pos ha.symm, if_pos ha, ha, add_mul, add_assoc]
      · rw [if_neg (Ne.symm ha), if_neg ha, zero_add]

/-! ## Columns -/

omit [CommSemiring K] in
/-- A column is listed once in each row. -/
theorem column_row (h : ∀ i < m, Row n (rows i)) (j : ℕ) : Row m (column rows m j) := by
  constructor
  · refine List.pairwise_flatMap.mpr ⟨fun i hi => ?_, ?_⟩
    · rw [List.pairwise_map]
      refine ((h i (List.mem_range.mp hi)).ascending.filter _).imp_of_mem ?_
      intro a b ha hb hlt
      have ha' := of_decide_eq_true (List.mem_filter.mp ha).2
      have hb' := of_decide_eq_true (List.mem_filter.mp hb).2
      exact absurd hlt (by omega)
    · refine List.pairwise_lt_range.imp fun {i k} hik a ha b hb => ?_
      obtain ⟨a', -, rfl⟩ := List.mem_map.mp ha
      obtain ⟨b', -, rfl⟩ := List.mem_map.mp hb
      exact hik
  · intro a ha
    obtain ⟨i, hi, ha⟩ := List.mem_flatMap.mp ha
    obtain ⟨a', -, rfl⟩ := List.mem_map.mp ha
    exact List.mem_range.mp hi

omit [CommSemiring K] in
theorem column_congr {rows' : ℕ → List (ℕ × K)} (h : ∀ i < m, rows i = rows' i) (j : ℕ) :
    column rows m j = column rows' m j :=
  List.flatMap_congr fun i hi => by rw [h i (List.mem_range.mp hi)]

omit [CommSemiring K] in
theorem filter_column (hi : i < m) :
    (column rows m j).filter (·.1 = i) = ((rows i).filter (·.1 = j)).map fun a => (i, a.2) := by
  have hkey : ∀ i, ∀ a ∈ ((rows i).filter (·.1 = j)).map fun a => (i, a.2), Prod.fst a = i := by
    intro i a ha
    obtain ⟨a', -, rfl⟩ := List.mem_map.mp ha
    rfl
  have hfilter := filter_flatMap_of_key (List.nodup_range (n := m)) hkey i
  rwa [if_pos (List.mem_range.mpr hi)] at hfilter

/-- **The columns are those of the transposed matrix.** -/
theorem lookup_column (hi : i < m) : lookup (column rows m j) i = lookup (rows i) j := by
  rw [lookup, filter_column hi, lookup, List.map_map]
  rfl

omit [CommSemiring K] in
/-- **The columns of the columns are the rows.** -/
theorem column_column (h : Row n (rows i)) (hi : i < m) :
    column (column rows m) n i = rows i := by
  have hparts : column (column rows m) n i =
      (List.range n).flatMap fun j => (rows i).filter (·.1 = j) := by
    rw [column]
    congr 1
    funext j
    rw [filter_column hi, List.map_map]
    have hself : ∀ a ∈ (rows i).filter (·.1 = j),
        ((fun a : ℕ × K => (j, a.2)) ∘ fun a => (i, a.2)) a = id a := by
      intro a ha
      have ha' := of_decide_eq_true (List.mem_filter.mp ha).2
      rw [← ha']
      rfl
    rw [List.map_congr_left hself, List.map_id]
  have hperm : ((List.range n).flatMap fun j => (rows i).filter (·.1 = j)).Perm (rows i) := by
    have hgroup := flatMap_filter_perm (l := rows i) Prod.fst (List.nodup_range (n := n))
    rwa [List.filter_eq_self.mpr fun a ha => by simpa using h.lt a ha] at hgroup
  rw [hparts]
  refine hperm.eq_of_pairwise (fun a b _ _ hab hba => absurd hab hba.not_gt) ?_ h.ascending
  refine List.pairwise_flatMap.mpr ⟨fun j _ => h.ascending.filter _, ?_⟩
  refine List.pairwise_lt_range.imp fun {j k} hjk a ha b hb => ?_
  have ha' := of_decide_eq_true (List.mem_filter.mp ha).2
  have hb' := of_decide_eq_true (List.mem_filter.mp hb).2
  omega

end Lush.SparseRows
