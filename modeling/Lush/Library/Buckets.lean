import Mathlib

/-!
# Chained buckets

A table of `size` buckets is a function from indices to lists, of which the
first `size` are in use.  An entry belongs to the bucket that its slot says.

What the operations on one bucket do to the entries of the whole table is one
statement up to permutation, `append_entries_perm`: adding, removing and
replacing an entry are the cases of it.
-/

namespace Lush.Buckets

variable {α : Type*}

/-- The entries of the first `size` buckets, bucket after bucket. -/
def entries (size : ℕ) (table : ℕ → List α) : List α :=
  (List.range size).flatMap table

/-- Every entry is in the bucket of its slot. -/
def Placed (slot : α → ℕ) (size : ℕ) (table : ℕ → List α) : Prop :=
  ∀ i < size, ∀ a ∈ table i, slot a = i

/-- An entry is put in front of its bucket. -/
def push (slot : α → ℕ) (table : ℕ → List α) (a : α) : ℕ → List α :=
  Function.update table (slot a) (a :: table (slot a))

/-- The entries of a list are put in empty buckets, one after the other. -/
def distribute (slot : α → ℕ) (as : List α) : ℕ → List α :=
  as.foldl (push slot) fun _ => []

variable {slot : α → ℕ} {size : ℕ} {table : ℕ → List α}

theorem entries_succ (size : ℕ) (table : ℕ → List α) :
    entries (size + 1) table = entries size table ++ table size := by
  rw [entries, List.range_succ, List.flatMap_append, List.flatMap_singleton, entries]

theorem mem_entries {a : α} : a ∈ entries size table ↔ ∃ i < size, a ∈ table i := by
  simp [entries, List.mem_flatMap]

/-- An entry is found in the bucket of its slot. -/
theorem Placed.mem_bucket (h : Placed slot size table) {a : α} (ha : a ∈ entries size table) :
    slot a < size ∧ a ∈ table (slot a) := by
  obtain ⟨i, hi, hai⟩ := mem_entries.mp ha
  rw [h i hi a hai]
  exact ⟨hi, hai⟩

/-! ## One bucket -/

theorem entries_update_of_le {i : ℕ} (h : size ≤ i) (bucket : List α) :
    entries size (Function.update table i bucket) = entries size table := by
  induction size with
  | zero => rfl
  | succ size ih =>
      rw [entries_succ, entries_succ, ih (by omega), Function.update_of_ne (by omega)]

/-- **What changes in a bucket changes in the table.** -/
theorem append_entries_perm {i : ℕ} (hi : i < size) {xs ys bucket : List α}
    (h : (xs ++ table i).Perm (ys ++ bucket)) :
    (xs ++ entries size table).Perm (ys ++ entries size (Function.update table i bucket)) := by
  induction size with
  | zero => exact absurd hi (Nat.not_lt_zero i)
  | succ size ih =>
      rw [entries_succ, entries_succ]
      rcases Nat.lt_succ_iff_lt_or_eq.mp hi with hlt | rfl
      · rw [Function.update_of_ne (Nat.ne_of_gt hlt), ← List.append_assoc, ← List.append_assoc]
        exact (ih hlt).append_right _
      · rw [Function.update_self, entries_update_of_le le_rfl]
        calc (xs ++ (entries i table ++ table i)).Perm (entries i table ++ (xs ++ table i)) :=
              List.perm_append_comm_assoc _ _ _
          _ |>.Perm (entries i table ++ (ys ++ bucket)) := h.append_left _
          _ |>.Perm (ys ++ (entries i table ++ bucket)) := List.perm_append_comm_assoc _ _ _

/-- An entry is taken out of its bucket. -/
theorem entries_remove {i : ℕ} (hi : i < size) {a : α} {before after : List α}
    (h : table i = before ++ a :: after) : (entries size table).Perm
      (a :: entries size (Function.update table i (before ++ after))) := by
  have hbucket : ([] ++ table i).Perm ([a] ++ (before ++ after)) := by
    rw [h]
    exact List.perm_middle
  exact append_entries_perm hi hbucket

/-- An entry is put in the middle of a bucket. -/
theorem entries_insert (table : ℕ → List α) {i : ℕ} (hi : i < size) (a : α)
    (before after : List α) :
    (entries size (Function.update table i (before ++ a :: after))).Perm
      (a :: entries size (Function.update table i (before ++ after))) := by
  have hbucket : ([a] ++ Function.update table i (before ++ after) i).Perm
      ([] ++ (before ++ a :: after)) := by
    rw [Function.update_self]
    show (a :: (before ++ after)).Perm (before ++ a :: after)
    exact List.perm_middle.symm
  have hperm := append_entries_perm hi hbucket
  rw [Function.update_idem] at hperm
  exact hperm.symm

theorem Placed.update (h : Placed slot size table) {i : ℕ} {bucket : List α}
    (hbucket : ∀ a ∈ bucket, slot a = i) : Placed slot size (Function.update table i bucket) := by
  intro j hj a ha
  by_cases hij : j = i
  · subst hij
    rw [Function.update_self] at ha
    exact hbucket a ha
  · rw [Function.update_of_ne hij] at ha
    exact h j hj a ha

/-! ## Adding entries -/

theorem Placed.push (h : Placed slot size table) {a : α} (ha : slot a < size) :
    Placed slot size (push slot table a) := by
  refine h.update fun b hb => ?_
  rcases List.mem_cons.mp hb with rfl | hb
  exacts [rfl, h _ ha b hb]

theorem entries_push (table : ℕ → List α) {a : α} (ha : slot a < size) :
    (entries size (push slot table a)).Perm (a :: entries size table) := by
  have hbucket : ([a] ++ table (slot a)).Perm ([] ++ a :: table (slot a)) := .refl _
  exact (append_entries_perm ha hbucket).symm

theorem foldl_push {as : List α} (h : Placed slot size table) (has : ∀ a ∈ as, slot a < size) :
    Placed slot size (as.foldl (push slot) table) ∧
      (entries size (as.foldl (push slot) table)).Perm (as ++ entries size table) := by
  induction as generalizing table with
  | nil => exact ⟨h, .refl _⟩
  | cons a as ih =>
      have ha := has a (by simp)
      obtain ⟨hplaced, hperm⟩ := ih (h.push ha) fun b hb => has b (by simp [hb])
      refine ⟨hplaced, hperm.trans ?_⟩
      exact ((entries_push table ha).append_left as).trans List.perm_middle

theorem entries_empty (size : ℕ) : entries size (fun _ => ([] : List α)) = [] := by
  simp [entries]

/-- **Distributing the entries loses none.** -/
theorem distribute_ok {as : List α} (has : ∀ a ∈ as, slot a < size) :
    Placed slot size (distribute slot as) ∧ (entries size (distribute slot as)).Perm as := by
  have hempty : Placed slot size fun _ => [] := fun i _ a ha => by simp at ha
  obtain ⟨hplaced, hperm⟩ := foldl_push hempty has
  rw [entries_empty, List.append_nil] at hperm
  exact ⟨hplaced, hperm⟩

end Lush.Buckets
