import Lush.Library.Heapsort

/-!
# Insertion and selection

Two simple ways to sort.  In insertion sort the elements of an array are put in their places from
the left to the right: those that are greater move up by one position until the place of an
element is found.  `insert_sorted` is the step, and `insertionSort_sorted` the result;
`count_of_permuted` says that exchanges keep the number of elements with a property.

In selection the smallest element of what is left is exchanged with the first one in each round.
After some rounds the elements that have been selected are the smallest ones, in ascending order
(`map_select`).
-/

namespace Lush.Insertion

open Heapsort

variable {α κ : Type} [LinearOrder κ]

/-- The element `x` takes its place at or before the position `j`, which is free. -/
def insert (key : α → κ) (x : α) : ℕ → (ℕ → α) → ℕ → α
  | 0, a => Function.update a 0 x
  | j + 1, a =>
      if key x < key (a j) then insert key x j (Function.update a (j + 1) (a j))
      else Function.update a (j + 1) x

/-- Insertion sort of the first `n` elements. -/
def insertionSort (key : α → κ) (n : ℕ) (a : ℕ → α) : ℕ → α :=
  (List.range' 1 (n - 1)).foldl (fun a i => insert key (a i) i a) a

variable {key : α → κ} {a b : ℕ → α} {x : α} {n i j : ℕ}

/-- The first `n` elements are sorted by their keys. -/
def Sorted (key : α → κ) (n : ℕ) (a : ℕ → α) : Prop :=
  ∀ p q, p ≤ q → q < n → key (a p) ≤ key (a q)

theorem insert_permuted (hj : j < n) :
    Permuted n (Function.update a j x) (insert key x j a) := by
  induction j generalizing a with
  | zero => exact .refl _ _
  | succ j ih =>
      rw [insert]
      split_ifs
      · exact (permuted_swap hj (by omega) (by omega)).trans (ih (by omega))
      · exact .refl _ _

/-- But for the position `j`, the elements up to `i` are sorted, and those after `j` are
greater than `x`. -/
structure Gap (key : α → κ) (x : α) (i j : ℕ) (a : ℕ → α) : Prop where
  sorted : ∀ p q, p ≤ q → q ≤ i → p ≠ j → q ≠ j → key (a p) ≤ key (a q)
  greater : ∀ q, j < q → q ≤ i → key x < key (a q)

/-- A greater element moves up. -/
theorem Gap.move (h : Gap key x i (j + 1) a) (hj : j + 1 ≤ i) (hlt : key x < key (a j)) :
    Gap key x i j (Function.update a (j + 1) (a j)) := by
  constructor
  · intro p q hpq hq hpj hqj
    by_cases hp : p = j + 1
    · subst hp
      rw [Function.update_self]
      by_cases hq1 : q = j + 1
      · rw [hq1, Function.update_self]
      · rw [Function.update_of_ne hq1]
        exact h.sorted j q (by omega) hq (by omega) hq1
    · rw [Function.update_of_ne hp]
      by_cases hq1 : q = j + 1
      · subst hq1
        rw [Function.update_self]
        exact h.sorted p j (by omega) (by omega) hp (by omega)
      · rw [Function.update_of_ne hq1]
        exact h.sorted p q hpq hq hp hq1
  · intro q hjq hq
    by_cases hq1 : q = j + 1
    · rwa [hq1, Function.update_self]
    · rw [Function.update_of_ne hq1]
      exact h.greater q (by omega) hq

/-- The element is put where no element before it is greater. -/
theorem Gap.fill (h : Gap key x i j a) (hle : ∀ p < j, key (a p) ≤ key x) :
    Sorted key (i + 1) (Function.update a j x) := by
  intro p q hpq hq
  rcases eq_or_ne p j with rfl | hp <;> rcases eq_or_ne q p with rfl | hqp
  · exact le_rfl
  · rw [Function.update_self, Function.update_of_ne hqp]
    exact (h.greater q (by omega) (by omega)).le
  · exact le_rfl
  · rw [Function.update_of_ne hp]
    rcases eq_or_ne q j with rfl | hqj
    · rw [Function.update_self]
      exact hle p (by omega)
    · rw [Function.update_of_ne hqj]
      exact h.sorted p q hpq (by omega) hp hqj

theorem Gap.insert (h : Gap key x i j a) (hj : j ≤ i) :
    Sorted key (i + 1) (insert key x j a) := by
  induction j generalizing a with
  | zero => exact h.fill fun p hp => absurd hp (Nat.not_lt_zero p)
  | succ j ih =>
      rw [Insertion.insert]
      split_ifs with hlt
      · exact ih (h.move hj hlt) (by omega)
      · refine h.fill fun p hp => ?_
        calc key (a p) ≤ key (a j) := h.sorted p j (by omega) (by omega) (by omega) (by omega)
          _ ≤ key x := not_lt.mp hlt

/-- **One element is put in its place.** -/
theorem insert_sorted (h : Sorted key i a) : Sorted key (i + 1) (insert key (a i) i a) := by
  refine Gap.insert ⟨fun p q hpq hq _ hqi => ?_, fun q hiq hq => ?_⟩ le_rfl
  · exact h p q hpq (by omega)
  · omega

/-- **Insertion sort sorts**, by exchanges among the first `n` elements. -/
theorem insertionSort_sorted (key : α → κ) (n : ℕ) (a : ℕ → α) :
    Sorted key n (insertionSort key n a) ∧ Permuted n a (insertionSort key n a) := by
  have hrun : ∀ m, m < n → Sorted key (m + 1)
        ((List.range' 1 m).foldl (fun a i => insert key (a i) i a) a) ∧
      Permuted n a ((List.range' 1 m).foldl (fun a i => insert key (a i) i a) a) := by
    intro m
    induction m with
    | zero =>
        intro _
        refine ⟨fun p q hpq hq => ?_, .refl _ _⟩
        obtain rfl : p = q := by omega
        exact le_rfl
    | succ m ih =>
        intro hm
        obtain ⟨hsorted, hperm⟩ := ih (by omega)
        rw [List.range'_1_concat, List.foldl_append, List.foldl_cons, List.foldl_nil,
          Nat.add_comm 1 m]
        refine ⟨insert_sorted hsorted, hperm.trans ?_⟩
        have hinsert := @insert_permuted _ _ _ key
          ((List.range' 1 m).foldl (fun a i => insert key (a i) i a) a)
          ((List.range' 1 m).foldl (fun a i => insert key (a i) i a) a (m + 1)) n (m + 1) hm
        rwa [Function.update_eq_self] at hinsert
  by_cases hn : n = 0
  · subst hn
    exact ⟨fun p q _ hq => absurd hq (Nat.not_lt_zero q), .refl _ _⟩
  · have hlast := hrun (n - 1) (by omega)
    rwa [Nat.sub_add_cancel (Nat.pos_of_ne_zero hn)] at hlast

/-! ## Counting -/

theorem count_eq_countP (p : α → Prop) [DecidablePred p] (n : ℕ) (a : ℕ → α) :
    Nat.count (fun i => p (a i)) n = ((List.range n).map a).countP p := by
  rw [List.countP_map]
  rfl

/-- Exchanges keep the number of elements with a property. -/
theorem count_of_permuted (h : Permuted n a b) (p : α → Prop) [DecidablePred p] :
    Nat.count (fun i => p (b i)) n = Nat.count (fun i => p (a i)) n := by
  rw [count_eq_countP, count_eq_countP, h.perm.countP_eq]

end Lush.Insertion

namespace Lush.Selection

variable {α κ : Type} [LinearOrder κ] (key : α → κ)

/-- The position of the first smallest element of a list, from the position `j` on, if it is
smaller than `bestKey`. -/
def bestIndex (bestKey : κ) (best : Option ℕ) : ℕ → List α → Option ℕ
  | _, [] => best
  | j, a :: l =>
      if key a < bestKey then bestIndex (key a) (some j) (j + 1) l
      else bestIndex bestKey best (j + 1) l

/-- One round: the element that is selected, and those that are left. -/
def selectOne (a : α) (l : List α) : α × List α :=
  match bestIndex key (key a) none 0 l with
  | none => (a, l)
  | some best => (l.getD best a, l.set best a)

/-- So many rounds. -/
def select : ℕ → List α → List α
  | 0, _ => []
  | _ + 1, [] => []
  | k + 1, a :: l => (selectOne key a l).1 :: select k (selectOne key a l).2

variable {key}

theorem bestIndex_spec (bestKey : κ) (best : Option ℕ) (j : ℕ) (l : List α) :
    (bestIndex key bestKey best j l = best ∧ ∀ a ∈ l, bestKey ≤ key a) ∨
      ∃ i a, bestIndex key bestKey best j l = some (j + i) ∧ l[i]? = some a ∧
        key a < bestKey ∧ ∀ b ∈ l, key a ≤ key b := by
  induction l generalizing bestKey best j with
  | nil => exact Or.inl ⟨rfl, by simp⟩
  | cons a l ih =>
      rw [bestIndex]
      by_cases hlt : key a < bestKey
      · rw [if_pos hlt]
        rcases ih (key a) (some j) (j + 1) with ⟨heq, hall⟩ | ⟨i, b, heq, hget, hb, hall⟩
        · exact Or.inr ⟨0, a, heq, rfl, hlt, List.forall_mem_cons.mpr ⟨le_rfl, hall⟩⟩
        · refine Or.inr ⟨i + 1, b, ?_, hget, hb.trans hlt, List.forall_mem_cons.mpr ⟨hb.le, hall⟩⟩
          rw [heq, Nat.add_assoc, Nat.add_comm 1 i]
      · rw [if_neg hlt]
        rcases ih bestKey best (j + 1) with ⟨heq, hall⟩ | ⟨i, b, heq, hget, hb, hall⟩
        · exact Or.inl ⟨heq, List.forall_mem_cons.mpr ⟨not_lt.mp hlt, hall⟩⟩
        · refine Or.inr ⟨i + 1, b, ?_, hget, hb,
            List.forall_mem_cons.mpr ⟨hb.le.trans (not_lt.mp hlt), hall⟩⟩
          rw [heq, Nat.add_assoc, Nat.add_comm 1 i]

/-- **One round selects a smallest element.** -/
theorem selectOne_spec (a : α) (l : List α) :
    ((selectOne key a l).1 :: (selectOne key a l).2).Perm (a :: l) ∧
      ∀ b ∈ (selectOne key a l).2, key (selectOne key a l).1 ≤ key b := by
  unfold selectOne
  have hbest := @bestIndex_spec _ _ _ key (key a) none 0 l
  rcases hbest with ⟨heq, hall⟩ | ⟨i, b, heq, hget, hb, hall⟩
  · rw [heq]
    exact ⟨.refl _, hall⟩
  · obtain ⟨hi, rfl⟩ := List.getElem?_eq_some_iff.mp hget
    rw [heq, Nat.zero_add]
    simp only [List.getD_eq_getElem _ _ hi]
    constructor
    · calc (l[i] :: l.set i a).Perm (l[i] :: a :: l.eraseIdx i) :=
            (List.set_perm_cons_eraseIdx hi a).cons _
        _ |>.Perm (a :: l[i] :: l.eraseIdx i) := .swap _ _ _
        _ |>.Perm (a :: l) := (List.getElem_cons_eraseIdx_perm hi).cons a
    · intro c hc
      rcases List.mem_or_eq_of_mem_set hc with hc | rfl
      · exact hall c hc
      · exact hb.le

/-- The elements that are selected are elements of the list. -/
theorem exists_perm_select (k : ℕ) (l : List α) : ∃ rest, (select key k l ++ rest).Perm l := by
  induction k generalizing l with
  | zero => exact ⟨l, .refl _⟩
  | succ k ih =>
      cases l with
      | nil => exact ⟨[], .refl _⟩
      | cons a l =>
          obtain ⟨rest, hrest⟩ := ih (selectOne key a l).2
          exact ⟨rest, (hrest.cons _).trans (selectOne_spec a l).1⟩

/-- A list is sorted in one way. -/
theorem insertionSort_of_perm {l l' : List κ} (h : l.Perm l') :
    l.insertionSort (· ≤ ·) = l'.insertionSort (· ≤ ·) :=
  ((List.perm_insertionSort _ l).trans (h.trans (List.perm_insertionSort _ l').symm)).eq_of_sortedLE
    List.sortedLE_insertionSort List.sortedLE_insertionSort

/-- **The smallest elements are selected**, in ascending order. -/
theorem map_select (k : ℕ) (l : List α) :
    (select key k l).map key = ((l.map key).insertionSort (· ≤ ·)).take k := by
  induction k generalizing l with
  | zero => rfl
  | succ k ih =>
      cases l with
      | nil => rfl
      | cons a l =>
          obtain ⟨hperm, hle⟩ := @selectOne_spec _ _ _ key a l
          have hmin : ∀ b ∈ (selectOne key a l).2.map key, key (selectOne key a l).1 ≤ b := by
            intro b hb
            obtain ⟨c, hc, rfl⟩ := List.mem_map.mp hb
            exact hle c hc
          rw [← insertionSort_of_perm (hperm.map key), List.map_cons,
            List.insertionSort_cons_of_forall_rel _ hmin, List.take_succ_cons, ← ih]
          rfl

end Lush.Selection
